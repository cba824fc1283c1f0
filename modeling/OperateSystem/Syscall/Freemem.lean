import Mathlib.Data.List.Perm.Subperm
import Mathlib.Data.Finset.Card
import OperateSystem.Kalloc.Conservation

/-!
# The free memory that `sysinfo` reports

The kernel of the second lab has one free list for all CPUs.  `infofreemem` walks it under
`kmem.lock` and counts, while other threads fill pages with junk and owners store into theirs:
the links that it follows lie in the pages themselves.

The allocator does what the one with a list for each CPU does when there is one CPU, and so the
pages are conserved here too.
-/

namespace OperateSystem.Freemem

open OperateSystem.Invariant
open OperateSystem.LinkedList
open OperateSystem.Kalloc (Layout pgsize pgroundup memsetWord)

/-! ## `kalloc.c` -/

/-- `kmem`, and the first word of every page, which is `r->next` while the page is free. -/
structure Kmem where
  freelist : ℕ
  next : ℕ → ℕ

namespace Kmem

/-- `memset(pa, byte, PGSIZE)`, seen through the first word of the page. -/
def memset (kmem : Kmem) (pa byte : ℕ) : Kmem :=
  { kmem with next := Function.update kmem.next pa (memsetWord byte) }

/-- The lock region of `kfree`. -/
def push (kmem : Kmem) (pa : ℕ) : Kmem where
  freelist := pa
  next := Function.update kmem.next pa kmem.freelist

/-- The lock region of `kalloc` when the list is not empty. -/
def pop (kmem : Kmem) : Kmem := { kmem with freelist := kmem.next kmem.freelist }

end Kmem

/-- `kfree` without interruption, as `kinit` uses it; `none` is the panic. -/
def kfree (L : Layout) (kmem : Kmem) (pa : ℕ) : Option Kmem :=
  if L.kfreePanics pa then none else some ((kmem.memset pa 1).push pa)

/-- The loop of `freerange` from page `p` on; the fuel bounds the number of pages left. -/
def freerangeLoop (L : Layout) (paEnd : ℕ) : ℕ → ℕ → Kmem → Option Kmem
  | 0, _, kmem => some kmem
  | fuel + 1, p, kmem =>
      if p + pgsize ≤ paEnd then
        match kfree L kmem p with
        | none => none
        | some kmem' => freerangeLoop L paEnd fuel (p + pgsize) kmem'
      else some kmem

/-- `freerange(pa_start, pa_end)`. -/
def freerange (L : Layout) (paStart paEnd : ℕ) (kmem : Kmem) : Option Kmem :=
  freerangeLoop L paEnd ((paEnd - pgroundup paStart) / pgsize + 1) (pgroundup paStart) kmem

/-- `kinit()`; memory holds whatever it held before. -/
def kinit (L : Layout) (garbage : ℕ → ℕ) : Option Kmem :=
  freerange L L.kernelEnd L.phystop ⟨0, garbage⟩

/-! ## Threads -/

variable {Tid : Type*} [DecidableEq Tid]

/-- Where a thread stands between two steps. -/
inductive Pc
  | idle
  | kfreeFill (pa : ℕ)
  | kfreeLock (pa : ℕ)
  | kallocLock
  | kallocFill (r : ℕ)
  | infoLock
  /-- The loop of `infofreemem`, under the lock. -/
  | infoLoop (r freemem : ℕ)
  | panicked

/-- The page a call in progress has in its hands. -/
def Pc.page : Pc → Option ℕ
  | .kfreeFill pa | .kfreeLock pa | .kallocFill pa => some pa
  | _ => none

/-- The allocator, the threads, the thread that walks the list with the lock, and the owners of
the pages. -/
structure State (Tid : Type*) where
  kmem : Kmem
  pc : Tid → Pc
  walker : Option Tid
  owner : ℕ → Option Tid

namespace State

def goto (s : State Tid) (t : Tid) (pc : Pc) : State Tid :=
  { s with pc := Function.update s.pc t pc }

def withKmem (s : State Tid) (kmem : Kmem) : State Tid := { s with kmem := kmem }

def setOwner (s : State Tid) (pa : ℕ) (owner : Option Tid) : State Tid :=
  { s with owner := Function.update s.owner pa owner }

def setWalker (s : State Tid) (walker : Option Tid) : State Tid := { s with walker := walker }

def boot (kmem : Kmem) : State Tid := ⟨kmem, fun _ => .idle, none, fun _ => none⟩

end State

/-- One step of thread `t`.  The lock regions of `kalloc` and `kfree` are single steps, which
wait while the list is walked. -/
inductive Step (L : Layout) : State Tid → State Tid → Prop
  | store {s t pa} (value : ℕ) (howner : s.owner pa = some t) :
      Step L s (s.withKmem { s.kmem with next := Function.update s.kmem.next pa value })
  | kfreeCall {s t t' pa} (hpc : s.pc t = .idle) (howner : s.owner pa = some t')
      (hcheck : L.kfreePanics pa = false) :
      Step L s ((s.setOwner pa none).goto t (.kfreeFill pa))
  | kfreePanic {s t t' pa} (hpc : s.pc t = .idle) (howner : s.owner pa = some t')
      (hcheck : L.kfreePanics pa = true) :
      Step L s ((s.setOwner pa none).goto t .panicked)
  | kfreeFill {s t pa} (hpc : s.pc t = .kfreeFill pa) :
      Step L s ((s.withKmem (s.kmem.memset pa 1)).goto t (.kfreeLock pa))
  | kfreePush {s t pa} (hpc : s.pc t = .kfreeLock pa) (hlock : s.walker = none) :
      Step L s ((s.withKmem (s.kmem.push pa)).goto t .idle)
  | kallocCall {s t} (hpc : s.pc t = .idle) : Step L s (s.goto t .kallocLock)
  | kallocPop {s t} (hpc : s.pc t = .kallocLock) (hlock : s.walker = none)
      (hsome : s.kmem.freelist ≠ 0) :
      Step L s ((s.withKmem s.kmem.pop).goto t (.kallocFill s.kmem.freelist))
  | kallocFail {s t} (hpc : s.pc t = .kallocLock) (hlock : s.walker = none)
      (hnone : s.kmem.freelist = 0) : Step L s (s.goto t .idle)
  | kallocReturn {s t r} (hpc : s.pc t = .kallocFill r) :
      Step L s (((s.withKmem (s.kmem.memset r 5)).setOwner r (some t)).goto t .idle)
  | infofreemem {s t} (hpc : s.pc t = .idle) : Step L s (s.goto t .infoLock)
  | infoAcquire {s t} (hpc : s.pc t = .infoLock) (hlock : s.walker = none) :
      Step L s ((s.setWalker (some t)).goto t (.infoLoop s.kmem.freelist 0))
  /-- `r = r -> next; freemem += PGSIZE;` -/
  | infoNext {s t r freemem} (hpc : s.pc t = .infoLoop r freemem) (hr : r ≠ 0) :
      Step L s (s.goto t (.infoLoop (s.kmem.next r) ((freemem + pgsize) % 2 ^ 64)))
  /-- `freemem` is returned. -/
  | infoReturn {s t freemem} (hpc : s.pc t = .infoLoop 0 freemem) :
      Step L s ((s.setWalker none).goto t .idle)

/-! ## The allocator with one CPU -/

/-- The same memory with one CPU. -/
def single (L : Layout) : Layout := { L with ncpu := 1 }

/-- The only CPU. -/
def cpu (L : Layout) : Fin (single L).ncpu := ⟨0, Nat.one_pos⟩

def Kmem.lists (L : Layout) (kmem : Kmem) : Kalloc.Kmems (single L).ncpu :=
  ⟨fun _ => kmem.freelist, kmem.next⟩

/-- A thread in `infofreemem` does nothing to the allocator. -/
def Pc.alloc (L : Layout) : Pc → Kalloc.Pc (single L).ncpu
  | .idle | .infoLock | .infoLoop _ _ => .idle
  | .kfreeFill pa => .kfreeFill pa
  | .kfreeLock pa => .kfreeLock pa (cpu L)
  | .kallocLock => .kallocLock (cpu L)
  | .kallocFill r => .kallocFill r
  | .panicked => .panicked

def State.alloc (L : Layout) (s : State Tid) : Kalloc.State (single L) Tid :=
  ⟨s.kmem.lists L, Pc.alloc L ∘ s.pc, s.owner⟩

section Simulation

variable {L : Layout} {s s' : State Tid}

theorem eq_cpu (i : Fin (single L).ncpu) : i = cpu L := Fin.ext (Nat.lt_one_iff.mp i.isLt)

theorem alloc_goto (t : Tid) (pc : Pc) :
    (s.goto t pc).alloc L = (s.alloc L).goto t (pc.alloc L) := by
  simp only [State.alloc, State.goto, Kalloc.State.goto, Function.comp_update]

theorem goto_goto (a : Kalloc.State L Tid) (t : Tid) (pc pc' : Kalloc.Pc L.ncpu) :
    (a.goto t pc).goto t pc' = a.goto t pc' := by
  simp only [Kalloc.State.goto, Function.update_idem]

theorem alloc_goto_same {t : Tid} {pc : Pc} (h : pc.alloc L = (s.pc t).alloc L) :
    (s.goto t pc).alloc L = s.alloc L := by
  rw [alloc_goto, h]
  simp only [Kalloc.State.goto, State.alloc]
  rw [← Function.comp_apply (f := Pc.alloc L) (g := s.pc), Function.update_eq_self]

theorem lists_push (kmem : Kmem) (pa : ℕ) :
    (kmem.push pa).lists L = (kmem.lists L).push (cpu L) pa := by
  simp only [Kmem.lists, Kmem.push, Kalloc.Kmems.push]
  congr 1
  funext i
  rw [eq_cpu i, Function.update_self]

theorem lists_pop {kmem : Kmem} (hsome : kmem.freelist ≠ 0) :
    (kmem.lists L).pop (cpu L) = (kmem.freelist, kmem.pop.lists L) := by
  have hlist : (kmem.lists L).freelist (cpu L) = kmem.freelist := rfl
  rw [Kalloc.Kmems.pop, hlist, if_neg hsome]
  simp only [Kmem.lists, Kmem.pop]
  congr 2
  funext i
  rw [eq_cpu i, Function.update_self]

/-- What the threads do to the allocator is a run of the one with one CPU. -/
theorem step_alloc (hstep : Step L s s') :
    Relation.ReflTransGen (Kalloc.Step (single L)) (s.alloc L) (s'.alloc L) := by
  cases hstep with
  | store value howner => exact .single (.store value howner)
  | @kfreeCall t t' pa hpc howner hcheck =>
      have hpc' : (s.alloc L).pc t = .idle := congrArg (Pc.alloc L) hpc
      rw [alloc_goto]
      exact .single (.kfreeCall hpc' howner hcheck)
  | @kfreePanic t t' pa hpc howner hcheck =>
      have hpc' : (s.alloc L).pc t = .idle := congrArg (Pc.alloc L) hpc
      rw [alloc_goto]
      exact .single (.kfreePanic hpc' howner hcheck)
  | @kfreeFill t pa hpc =>
      have hpc' : (s.alloc L).pc t = .kfreeFill pa := congrArg (Pc.alloc L) hpc
      have hrun := (Relation.ReflTransGen.single (Kalloc.Step.kfreeFill hpc')).tail
        (Kalloc.Step.kfreeCpu (t := t) (cpu L) (Function.update_self _ _ _))
      rw [goto_goto] at hrun
      rw [alloc_goto]
      exact hrun
  | @kfreePush t pa hpc hlock =>
      have hpc' : (s.alloc L).pc t = .kfreeLock pa (cpu L) := congrArg (Pc.alloc L) hpc
      have hrun := Relation.ReflTransGen.single (Kalloc.Step.kfreePush hpc')
      rw [show (s.alloc L).kmems = s.kmem.lists L from rfl, ← lists_push] at hrun
      rw [alloc_goto]
      exact hrun
  | @kallocCall t hpc =>
      have hpc' : (s.alloc L).pc t = .idle := congrArg (Pc.alloc L) hpc
      have hrun := (Relation.ReflTransGen.single (Kalloc.Step.kallocCall hpc')).tail
        (Kalloc.Step.kallocCpu (t := t) (cpu L) (Function.update_self _ _ _))
      rw [goto_goto] at hrun
      rw [alloc_goto]
      exact hrun
  | @kallocPop t hpc hlock hsome =>
      have hpc' : (s.alloc L).pc t = .kallocLock (cpu L) := congrArg (Pc.alloc L) hpc
      have hrun := Relation.ReflTransGen.single (Kalloc.Step.kallocOwn hpc' hsome)
      rw [show (s.alloc L).kmems = s.kmem.lists L from rfl, lists_pop hsome] at hrun
      rw [alloc_goto]
      exact hrun
  | @kallocFail t hpc hlock hnone =>
      have hpc' : (s.alloc L).pc t = .kallocLock (cpu L) := congrArg (Pc.alloc L) hpc
      have hrun := Relation.ReflTransGen.single (Kalloc.Step.kallocOwnEmpty hpc' hnone)
      have hown : ((s.alloc L).goto t (.kallocSteal (cpu L) 0)).pc t = .kallocSteal (cpu L) 0 :=
        Function.update_self _ _ _
      replace hrun := hrun.tail (Kalloc.Step.kallocSkip hown rfl)
      rw [goto_goto] at hrun
      have hend : ((s.alloc L).goto t (.kallocSteal (cpu L) (0 + 1))).pc t
          = .kallocSteal (cpu L) (single L).ncpu := Function.update_self _ _ _
      replace hrun := hrun.tail (Kalloc.Step.kallocFail hend)
      rw [goto_goto] at hrun
      rw [alloc_goto]
      exact hrun
  | @kallocReturn t r hpc =>
      have hpc' : (s.alloc L).pc t = .kallocFill r := congrArg (Pc.alloc L) hpc
      rw [alloc_goto]
      exact .single (.kallocReturn hpc')
  | @infofreemem t hpc =>
      rw [alloc_goto_same (by rw [hpc]; rfl)]
  | @infoAcquire t hpc hlock =>
      rw [alloc_goto_same (s := s.setWalker (some t)) (by
        change _ = Pc.alloc L (s.pc t)
        rw [hpc]
        rfl)]
      exact .refl
  | @infoNext t r freemem hpc hr =>
      rw [alloc_goto_same (by rw [hpc]; rfl)]
  | @infoReturn t freemem hpc =>
      rw [alloc_goto_same (s := s.setWalker none) (by
        change _ = Pc.alloc L (s.pc t)
        rw [hpc]
        rfl)]
      exact .refl

theorem freerangeLoop_alloc (paEnd fuel p : ℕ) (kmem : Kmem) :
    Kalloc.freerangeLoop (single L) (cpu L) paEnd fuel p (kmem.lists L)
      = (freerangeLoop L paEnd fuel p kmem).map (Kmem.lists L) := by
  induction fuel generalizing p kmem with
  | zero => rfl
  | succ fuel ih =>
      rw [Kalloc.freerangeLoop, freerangeLoop]
      split
      · rw [Kalloc.kfree, kfree, show (single L).kfreePanics p = L.kfreePanics p from rfl]
        by_cases hpanics : L.kfreePanics p
        · rw [if_pos hpanics, if_pos hpanics]
          rfl
        · rw [if_neg hpanics, if_neg hpanics,
            show (kmem.lists L).memset p 1 = (kmem.memset p 1).lists L from rfl, ← lists_push]
          exact ih _ _
      · rfl

theorem kinit_alloc (garbage : ℕ → ℕ) :
    Kalloc.kinit (single L) (cpu L) garbage = (kinit L garbage).map (Kmem.lists L) :=
  freerangeLoop_alloc L.phystop _ _ ⟨0, garbage⟩

end Simulation

/-! ## The walk -/

section Walk

variable {L : Layout} {s s' : State Tid} {t : Tid}

/-- The walk has counted the pages `seen` of the list and has the rest before it. -/
def Walking (kmem : Kmem) (r freemem : ℕ) : Prop :=
  ∃ seen rest, Linked kmem.next kmem.freelist (seen ++ rest) ∧ Linked kmem.next r rest ∧
    freemem = pgsize * seen.length

structure Inv (L : Layout) (s : State Tid) : Prop where
  books : ∃ cells place, Kalloc.Conserved (s.alloc L) cells place
  lock : ∀ t r freemem, s.pc t = .infoLoop r freemem → s.walker = some t
  walk : ∀ t r freemem, s.pc t = .infoLoop r freemem → Walking s.kmem r freemem

/-- Stores off the list do not disturb a walk. -/
theorem Walking.frame {kmem kmem' : Kmem} {r freemem : ℕ} (h : Walking kmem r freemem)
    (hfreelist : kmem'.freelist = kmem.freelist)
    (hnext : ∀ cells, Linked kmem.next kmem.freelist cells → ∀ pa ∈ cells,
      kmem'.next pa = kmem.next pa) : Walking kmem' r freemem := by
  obtain ⟨seen, rest, hlist, hrest, hcount⟩ := h
  have hsame := hnext _ hlist
  refine ⟨seen, rest, ?_, hrest.frame fun pa hpa => hsame pa (List.mem_append_right _ hpa), hcount⟩
  rw [hfreelist]
  exact hlist.frame hsame

/-- The free pages are at most as much memory as there is. -/
theorem pages_le {cells : List ℕ} (hnodup : cells.Nodup) (hpages : ∀ pa ∈ cells, L.IsPage pa) :
    pgsize * cells.length ≤ L.phystop := by
  have htop := L.phystop_aligned
  have hindex : (cells.map fun pa => pa / pgsize).Nodup := by
    refine hnodup.map_on fun pa hpa pb hpb heq => ?_
    have ha := (hpages pa hpa).1
    have hb := (hpages pb hpb).1
    simp only [pgsize] at *
    omega
  have hsub : (cells.map fun pa => pa / pgsize) ⊆ List.range (L.phystop / pgsize) := by
    intro k hk
    obtain ⟨pa, hpa, rfl⟩ := List.mem_map.mp hk
    obtain ⟨ha, -, hlt⟩ := hpages pa hpa
    rw [List.mem_range]
    simp only [pgsize] at *
    omega
  have hlength := (List.subperm_of_subset hindex hsub).length_le
  rw [List.length_map, List.length_range] at hlength
  simp only [pgsize] at *
  omega

omit [DecidableEq Tid] in
/-- The list of a state whose pages are conserved. -/
theorem Inv.list (h : Inv L s) {cells : List ℕ} (hlist : Linked s.kmem.next s.kmem.freelist cells) :
    ∃ place, Kalloc.Conserved (s.alloc L) (fun _ => cells) place := by
  obtain ⟨lists, place, hbooks⟩ := h.books
  have heq : lists = fun _ => cells := by
    funext i
    exact (hbooks.linked i).unique hlist
  exact ⟨place, heq ▸ hbooks⟩

theorem Inv.books_step (h : Inv L s) (hstep : Step L s s') :
    ∃ cells place, Kalloc.Conserved (s'.alloc L) cells place := by
  refine reachable_invariant (fun a => ∃ cells place, Kalloc.Conserved a cells place) h.books ?_
    (step_alloc hstep)
  rintro before after ⟨cells, place, hbooks⟩ hstep
  exact hbooks.step hstep

/-- A step that does not walk: it stores off the list, or nobody walks. -/
theorem Inv.other (h : Inv L s) (hstep : Step L s s') {pc : Pc}
    (hpc : s'.pc = Function.update s.pc t pc)
    (hnew : ∀ r freemem, pc = .infoLoop r freemem → s.pc t = .infoLoop r freemem)
    (hwalker : s'.walker = s.walker)
    (hkmem : s.walker = none ∨ s'.kmem.freelist = s.kmem.freelist ∧
      ∀ cells, Linked s.kmem.next s.kmem.freelist cells → ∀ pa ∈ cells,
        s'.kmem.next pa = s.kmem.next pa) : Inv L s' := by
  have hsame : ∀ t' r freemem, s'.pc t' = .infoLoop r freemem → s.pc t' = .infoLoop r freemem := by
    intro t' r freemem ht'
    rw [hpc] at ht'
    by_cases heq : t' = t
    · subst heq
      rw [Function.update_self] at ht'
      exact hnew r freemem ht'
    · rwa [Function.update_of_ne heq] at ht'
  refine ⟨h.books_step hstep, fun t' r freemem ht' => ?_, fun t' r freemem ht' => ?_⟩
  · rw [hwalker]
    exact h.lock t' r freemem (hsame t' r freemem ht')
  · have hwalk := hsame t' r freemem ht'
    rcases hkmem with hnone | ⟨hfreelist, hnext⟩
    · rw [h.lock t' r freemem hwalk] at hnone
      cases hnone
    · exact (h.walk t' r freemem hwalk).frame hfreelist hnext

omit [DecidableEq Tid] in
theorem alloc_page (s : State Tid) (t : Tid) : ((s.alloc L).pc t).page = (s.pc t).page := by
  change ((s.pc t).alloc L).page = _
  cases s.pc t <;> rfl

omit [DecidableEq Tid] in
/-- A page that an owner has, or a call, is not on the list. -/
theorem Inv.not_listed (h : Inv L s) {pa : ℕ} (hpa : s.owner pa = some t ∨ (s.pc t).page = some pa)
    {cells : List ℕ} (hlist : Linked s.kmem.next s.kmem.freelist cells) : pa ∉ cells := by
  obtain ⟨place, hbooks⟩ := h.list hlist
  intro hmem
  have hfree := (hbooks.free pa (cpu L)).mpr hmem
  rcases hpa with howner | hpage
  · rw [(hbooks.owned pa t).mpr howner] at hfree
    cases hfree
  · exact hbooks.not_free_of_inCall ((alloc_page s t).trans hpage) (cpu L) hmem

omit [DecidableEq Tid] in
theorem Inv.list_le (h : Inv L s) {cells : List ℕ}
    (hlist : Linked s.kmem.next s.kmem.freelist cells) : pgsize * cells.length ≤ L.phystop := by
  obtain ⟨place, hbooks⟩ := h.list hlist
  exact pages_le hlist.nodup fun pa hpa =>
    hbooks.isPage_of_place ((hbooks.free pa (cpu L)).mpr hpa)

theorem Inv.step (h : Inv L s) (hstep : Step L s s') : Inv L s' := by
  have hoff : ∀ {t pa value}, s.owner pa = some t ∨ (s.pc t).page = some pa →
      ∀ cells, Linked s.kmem.next s.kmem.freelist cells → ∀ pa' ∈ cells,
        Function.update s.kmem.next pa value pa' = s.kmem.next pa' := by
    intro t pa value hpa cells hlist pa' hmem
    apply Function.update_of_ne
    rintro rfl
    exact h.not_listed hpa hlist hmem
  have hstep' := hstep
  cases hstep with
  | @store t pa value howner =>
      exact h.other (t := t) hstep' (Function.update_eq_self t s.pc).symm (fun _ _ => id) rfl
        (Or.inr ⟨rfl, hoff (Or.inl howner)⟩)
  | @kfreeCall t t' pa hpc howner hcheck =>
      exact h.other (t := t) hstep' rfl nofun rfl (Or.inr ⟨rfl, fun _ _ _ _ => rfl⟩)
  | @kfreePanic t t' pa hpc howner hcheck =>
      exact h.other (t := t) hstep' rfl nofun rfl (Or.inr ⟨rfl, fun _ _ _ _ => rfl⟩)
  | @kfreeFill t pa hpc =>
      exact h.other (t := t) hstep' rfl nofun rfl
        (Or.inr ⟨rfl, hoff (t := t) (Or.inr (by rw [hpc]; rfl))⟩)
  | @kfreePush t pa hpc hlock => exact h.other (t := t) hstep' rfl nofun rfl (Or.inl hlock)
  | @kallocCall t hpc =>
      exact h.other (t := t) hstep' rfl nofun rfl (Or.inr ⟨rfl, fun _ _ _ _ => rfl⟩)
  | @kallocPop t hpc hlock hsome => exact h.other (t := t) hstep' rfl nofun rfl (Or.inl hlock)
  | @kallocFail t hpc hlock hnone => exact h.other (t := t) hstep' rfl nofun rfl (Or.inl hlock)
  | @kallocReturn t r hpc =>
      exact h.other (t := t) hstep' rfl nofun rfl
        (Or.inr ⟨rfl, hoff (t := t) (Or.inr (by rw [hpc]; rfl))⟩)
  | @infofreemem t hpc =>
      exact h.other (t := t) hstep' rfl nofun rfl (Or.inr ⟨rfl, fun _ _ _ _ => rfl⟩)
  | @infoAcquire t hpc hlock =>
      have hother : ∀ t' r freemem, t' ≠ t → s.pc t' ≠ .infoLoop r freemem := by
        intro t' r freemem _ ht'
        rw [h.lock t' r freemem ht'] at hlock
        cases hlock
      refine ⟨h.books_step hstep', fun t' r freemem ht' => ?_, fun t' r freemem ht' => ?_⟩
      · by_cases heq : t' = t
        · exact heq ▸ rfl
        · have hold : s.pc t' = .infoLoop r freemem := by
            simpa [State.goto, State.setWalker, heq] using ht'
          exact absurd hold (hother t' r freemem heq)
      · by_cases heq : t' = t
        · subst heq
          obtain ⟨cells, place, hbooks⟩ := h.books
          have hlist := hbooks.linked (cpu L)
          obtain ⟨rfl, rfl⟩ : s.kmem.freelist = r ∧ 0 = freemem := by
            simpa [State.goto, State.setWalker] using ht'
          exact ⟨[], cells (cpu L), hlist, hlist, rfl⟩
        · have hold : s.pc t' = .infoLoop r freemem := by
            simpa [State.goto, State.setWalker, heq] using ht'
          exact absurd hold (hother t' r freemem heq)
  | @infoNext t r freemem hpc hr =>
      refine ⟨h.books_step hstep', fun t' r' freemem' ht' => ?_, fun t' r' freemem' ht' => ?_⟩
      · by_cases heq : t' = t
        · exact heq ▸ h.lock t r freemem hpc
        · exact h.lock t' r' freemem' (by simpa [State.goto, heq] using ht')
      · by_cases heq : t' = t
        · subst heq
          obtain ⟨rfl, rfl⟩ : s.kmem.next r = r' ∧ (freemem + pgsize) % 2 ^ 64 = freemem' := by
            simpa [State.goto] using ht'
          obtain ⟨seen, rest, hlist, hrest, hcount⟩ := h.walk t' r freemem hpc
          obtain ⟨rest', rfl, hrest'⟩ := hrest.pop hr
          have hbound := h.list_le hlist
          have htop := L.phystop_lt
          refine ⟨seen ++ [r], rest', ?_, hrest', ?_⟩
          · rw [List.append_assoc]
            exact hlist
          rw [List.length_append, List.length_cons] at hbound
          rw [List.length_append, List.length_singleton, hcount]
          simp only [pgsize] at *
          omega
        · exact h.walk t' r' freemem' (by simpa [State.goto, heq] using ht')
  | @infoReturn t freemem hpc =>
      have hnone : ∀ t' r freemem,
          ((s.setWalker none).goto t .idle).pc t' ≠ .infoLoop r freemem := by
        intro t' r freemem' ht'
        by_cases heq : t' = t
        · subst heq
          simp [State.goto] at ht'
        · have hlock := h.lock t' r freemem' (by simpa [State.goto, State.setWalker, heq] using ht')
          rw [h.lock t 0 freemem hpc, Option.some.injEq] at hlock
          exact heq hlock.symm
      exact ⟨h.books_step hstep', fun t' r freemem ht' => absurd ht' (hnone t' r freemem),
        fun t' r freemem ht' => absurd ht' (hnone t' r freemem)⟩

theorem inv_boot {garbage : ℕ → ℕ} {kmem : Kmem} (hboot : kinit L garbage = some kmem) :
    Inv L (State.boot kmem : State Tid) := by
  have hkinit : Kalloc.kinit (single L) (cpu L) garbage = some (kmem.lists L) := by
    rw [kinit_alloc, hboot]
    rfl
  refine ⟨?_, nofun, nofun⟩
  exact Kalloc.reachable_conserved (cpu L) garbage hkinit .refl

theorem reachable_inv {garbage : ℕ → ℕ} {kmem : Kmem} (hboot : kinit L garbage = some kmem)
    (hreach : Reachable (Step L) (State.boot kmem) s) : Inv L s :=
  reachable_invariant (Inv L) (inv_boot hboot) (fun _ _ h hstep => h.step hstep) hreach

/-- In every interleaving with `kalloc`, `kfree` and stores into pages, `infofreemem` comes to the
end of the list, and what it returns then is the size of all the pages that nobody owns and no
call has in its hands. -/
theorem infofreemem_counts {garbage : ℕ → ℕ} {kmem : Kmem} (hboot : kinit L garbage = some kmem)
    (hreach : Reachable (Step L) (State.boot kmem) s) :
    ∃ free : Finset ℕ,
      (∀ pa, pa ∈ free ↔ L.IsPage pa ∧ s.owner pa = none ∧ ∀ t, (s.pc t).page ≠ some pa) ∧
      ∀ t r freemem, s.pc t = .infoLoop r freemem →
        ∃ left, freemem + pgsize * left = pgsize * free.card ∧ (left = 0 ↔ r = 0) := by
  have h := reachable_inv hboot hreach
  obtain ⟨lists, place, hbooks⟩ := h.books
  have hlist := hbooks.linked (cpu L)
  refine ⟨(lists (cpu L)).toFinset, fun pa => ?_, fun t r freemem hpc => ?_⟩
  · rw [List.mem_toFinset]
    constructor
    · intro hmem
      have hfree := (hbooks.free pa (cpu L)).mpr hmem
      have hpage := hbooks.isPage_of_place hfree
      refine ⟨hpage, ?_, fun t hcall => h.not_listed (Or.inr hcall) hlist hmem⟩
      cases howner : s.owner pa with
      | none => rfl
      | some t => exact absurd hmem (h.not_listed (Or.inl howner) hlist)
    · rintro ⟨hpage, howner, hcall⟩
      obtain ⟨somewhere, hplace⟩ := Option.isSome_iff_exists.mp ((hbooks.pages pa).mpr hpage)
      cases somewhere with
      | free i => exact eq_cpu i ▸ (hbooks.free pa i).mp hplace
      | inCall t =>
          have hpc := (hbooks.inCall pa t).mp hplace
          rw [alloc_page] at hpc
          exact absurd hpc (hcall t)
      | owned t =>
          have hsome : s.owner pa = some t := (hbooks.owned pa t).mp hplace
          rw [howner] at hsome
          cases hsome
  · obtain ⟨seen, rest, hall, hrest, hcount⟩ := h.walk t r freemem hpc
    refine ⟨rest.length, ?_, ?_⟩
    · rw [hlist.unique hall, List.toFinset_card_of_nodup hall.nodup, List.length_append, hcount,
        Nat.mul_add]
    · cases rest with
      | nil => simpa using hrest
      | cons page rest =>
          obtain ⟨rfl, hnull, -⟩ := hrest
          simp [hnull]

end Walk

/-- Thread 7 takes a page while thread 0 is about to walk the rest of the list. -/
theorem infofreemem_counts_two : ∃ (kmem : Kmem) (s : State ℕ),
    kinit Kalloc.threePages (fun _ => 0) = some kmem ∧
    Reachable (Step Kalloc.threePages) (State.boot kmem) s ∧
    s.owner 0x80023000 = some 7 ∧ s.pc 0 = .infoLoop 0x80022000 0 ∧
    ∃ free : Finset ℕ, 0x80023000 ∉ free ∧
      ∃ left, 0 + pgsize * left = pgsize * free.card ∧ (left = 0 ↔ 0x80022000 = 0) := by
  have heads : (kinit Kalloc.threePages (fun _ => 0)).map
      (fun kmem => (kmem.freelist, kmem.next 0x80023000)) = some (0x80023000, 0x80022000) := by
    decide +kernel
  obtain ⟨kmem, hboot, hheads⟩ := Option.map_eq_some_iff.mp heads
  obtain ⟨hfirst, hsecond⟩ := Prod.mk.inj hheads
  have hreach := Relation.ReflTransGen.refl (r := Step Kalloc.threePages)
    (a := (State.boot kmem : State ℕ))
  replace hreach := hreach.tail (.kallocCall (t := 7) rfl)
  replace hreach := hreach.tail (.kallocPop (t := 7) rfl rfl (by
    change kmem.freelist ≠ 0
    rw [hfirst]
    decide))
  replace hreach := hreach.tail (.infofreemem (t := 0) rfl)
  replace hreach := hreach.tail (.infoAcquire (t := 0) rfl rfl)
  replace hreach := hreach.tail (.kallocReturn (t := 7) rfl)
  obtain ⟨free, hfree, hwalk⟩ := infofreemem_counts hboot hreach
  have hpc : (Pc.infoLoop kmem.pop.freelist 0) = .infoLoop 0x80022000 0 := by
    rw [Kmem.pop, hfirst, hsecond]
  have howner : Function.update (fun _ => none) kmem.freelist (some 7) 0x80023000 = some 7 := by
    rw [hfirst, Function.update_self]
  refine ⟨kmem, _, hboot, hreach, howner, hpc, free, fun hmem => ?_, hwalk 0 _ _ hpc⟩
  cases howner.symm.trans ((hfree 0x80023000).mp hmem).2.1

end OperateSystem.Freemem

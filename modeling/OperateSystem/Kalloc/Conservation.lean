import OperateSystem.Core.Invariant
import OperateSystem.Core.LinkedList
import OperateSystem.Kalloc.Allocator

/-!
# Interleaved calls and page conservation

Any number of kernel threads run `kalloc` and `kfree` at the same time.  A step
of the system is one lock region, one `memset`, or one sampling of the CPU
number; between two steps of a call any other call may run, and the thread may
have moved to another CPU.  The conservation theorem says that at every instant
every page is in exactly one place.
-/

namespace OperateSystem.Kalloc

open OperateSystem.Invariant
open OperateSystem.LinkedList

variable {Tid : Type*} [DecidableEq Tid]

/-- Where a thread stands between two steps. -/
inductive Pc (ncpu : ℕ)
  | idle
  | kfreeFill (pa : ℕ)
  | kfreeCpu (pa : ℕ)
  | kfreeLock (pa : ℕ) (cpuId : Fin ncpu)
  | kallocCpu
  | kallocLock (cpuId : Fin ncpu)
  | kallocSteal (cpuId : Fin ncpu) (id : ℕ)
  | kallocFill (r : ℕ)
  | panicked

/-- The page a call in progress has in its hands. -/
def Pc.page {ncpu : ℕ} : Pc ncpu → Option ℕ
  | .kfreeFill pa | .kfreeCpu pa | .kfreeLock pa _ | .kallocFill pa => some pa
  | .idle | .kallocCpu | .kallocLock _ | .kallocSteal _ _ | .panicked => none

section PageLemmas

variable {ncpu : ℕ} (pa : ℕ) (cpuId : Fin ncpu)

@[simp] theorem Pc.page_idle : (.idle : Pc ncpu).page = none := rfl
@[simp] theorem Pc.page_kfreeFill : (.kfreeFill pa : Pc ncpu).page = some pa := rfl
@[simp] theorem Pc.page_kfreeCpu : (.kfreeCpu pa : Pc ncpu).page = some pa := rfl
@[simp] theorem Pc.page_kfreeLock : (Pc.kfreeLock pa cpuId).page = some pa := rfl
@[simp] theorem Pc.page_kallocCpu : (.kallocCpu : Pc ncpu).page = none := rfl
@[simp] theorem Pc.page_kallocLock : (Pc.kallocLock cpuId).page = none := rfl
@[simp] theorem Pc.page_kallocSteal : (Pc.kallocSteal cpuId pa).page = none := rfl
@[simp] theorem Pc.page_kallocFill : (.kallocFill pa : Pc ncpu).page = some pa := rfl

end PageLemmas

/-- The whole system: the allocator, the threads, and for every page the caller
that `kalloc` gave it to and that has not freed it since. -/
structure State (L : Layout) (Tid : Type*) where
  kmems : Kmems L.ncpu
  pc : Tid → Pc L.ncpu
  owner : ℕ → Option Tid

namespace State

variable {L : Layout}

def goto (s : State L Tid) (t : Tid) (pc : Pc L.ncpu) : State L Tid :=
  { s with pc := Function.update s.pc t pc }

def withKmems (s : State L Tid) (kmems : Kmems L.ncpu) : State L Tid :=
  { s with kmems := kmems }

def setOwner (s : State L Tid) (pa : ℕ) (owner : Option Tid) : State L Tid :=
  { s with owner := Function.update s.owner pa owner }

/-- All threads idle and no page handed out yet. -/
def boot (kmems : Kmems L.ncpu) : State L Tid :=
  ⟨kmems, fun _ => .idle, fun _ => none⟩

end State

/-- One step of thread `t`. -/
inductive Step (L : Layout) : State L Tid → State L Tid → Prop
  /-- An owner may store anything into its page. -/
  | store {s t pa} (value : ℕ) (howner : s.owner pa = some t) :
      Step L s (s.withKmems
        { s.kmems with next := Function.update s.kmems.next pa value })
  | kfreeCall {s t t' pa} (hpc : s.pc t = .idle) (howner : s.owner pa = some t')
      (hcheck : L.kfreePanics pa = false) :
      Step L s ((s.setOwner pa none).goto t (.kfreeFill pa))
  | kfreePanic {s t t' pa} (hpc : s.pc t = .idle) (howner : s.owner pa = some t')
      (hcheck : L.kfreePanics pa = true) :
      Step L s ((s.setOwner pa none).goto t .panicked)
  | kfreeFill {s t pa} (hpc : s.pc t = .kfreeFill pa) :
      Step L s ((s.withKmems (s.kmems.memset pa 1)).goto t (.kfreeCpu pa))
  | kfreeCpu {s t pa} (cpuId : Fin L.ncpu) (hpc : s.pc t = .kfreeCpu pa) :
      Step L s (s.goto t (.kfreeLock pa cpuId))
  | kfreePush {s t pa cpuId} (hpc : s.pc t = .kfreeLock pa cpuId) :
      Step L s ((s.withKmems (s.kmems.push cpuId pa)).goto t .idle)
  | kallocCall {s t} (hpc : s.pc t = .idle) :
      Step L s (s.goto t .kallocCpu)
  | kallocCpu {s t} (cpuId : Fin L.ncpu) (hpc : s.pc t = .kallocCpu) :
      Step L s (s.goto t (.kallocLock cpuId))
  | kallocOwn {s t cpuId} (hpc : s.pc t = .kallocLock cpuId)
      (hsome : s.kmems.freelist cpuId ≠ 0) :
      Step L s ((s.withKmems (s.kmems.pop cpuId).2).goto t
        (.kallocFill (s.kmems.pop cpuId).1))
  | kallocOwnEmpty {s t cpuId} (hpc : s.pc t = .kallocLock cpuId)
      (hnone : s.kmems.freelist cpuId = 0) :
      Step L s (s.goto t (.kallocSteal cpuId 0))
  | kallocSkip {s t cpuId id} (hpc : s.pc t = .kallocSteal cpuId id)
      (hown : id = cpuId) :
      Step L s (s.goto t (.kallocSteal cpuId (id + 1)))
  | kallocSteal {s t cpuId} {id : Fin L.ncpu} (hpc : s.pc t = .kallocSteal cpuId id)
      (hother : id ≠ cpuId) (hsome : s.kmems.freelist id ≠ 0) :
      Step L s ((s.withKmems (s.kmems.pop id).2).goto t
        (.kallocFill (s.kmems.pop id).1))
  | kallocStealEmpty {s t cpuId} {id : Fin L.ncpu}
      (hpc : s.pc t = .kallocSteal cpuId id) (hother : id ≠ cpuId)
      (hnone : s.kmems.freelist id = 0) :
      Step L s (s.goto t (.kallocSteal cpuId (id + 1)))
  | kallocFail {s t cpuId} (hpc : s.pc t = .kallocSteal cpuId L.ncpu) :
      Step L s (s.goto t .idle)
  | kallocReturn {s t r} (hpc : s.pc t = .kallocFill r) :
      Step L s (((s.withKmems (s.kmems.memset r 5)).setOwner r (some t)).goto t .idle)

/-- The places a page can be in. -/
inductive Place (ncpu : ℕ) (Tid : Type*)
  | free (cpuId : Fin ncpu)
  | inCall (t : Tid)
  | owned (t : Tid)

/-- `pa` is on the free list of `cpuId`: it is visited on the way from the head
to the null link. -/
def OnFreelist {ncpu : ℕ} (kmems : Kmems ncpu) (cpuId : Fin ncpu) (pa : ℕ) : Prop :=
  ∃ cells, Linked kmems.next (kmems.freelist cpuId) cells ∧ pa ∈ cells

/-- Page `pa` is in the given place. -/
def State.At {L : Layout} (s : State L Tid) (pa : ℕ) : Place L.ncpu Tid → Prop
  | .free cpuId => OnFreelist s.kmems cpuId pa
  | .inCall t => (s.pc t).page = some pa
  | .owned t => s.owner pa = some t

/-! ## The invariant -/

/-- Bookkeeping for one state: the cells of every free list and a place for
every page.  `place` is a function, so a page in two places cannot be
described. -/
structure Conserved {L : Layout} (s : State L Tid) (cells : Fin L.ncpu → List ℕ)
    (place : ℕ → Option (Place L.ncpu Tid)) : Prop where
  linked : ∀ i, Linked s.kmems.next (s.kmems.freelist i) (cells i)
  pages : ∀ pa, (place pa).isSome ↔ L.IsPage pa
  free : ∀ pa i, place pa = some (.free i) ↔ pa ∈ cells i
  inCall : ∀ pa t, place pa = some (.inCall t) ↔ (s.pc t).page = some pa
  owned : ∀ pa t, place pa = some (.owned t) ↔ s.owner pa = some t
  running : ∀ t, s.pc t ≠ .panicked

section Preservation

variable {L : Layout} {s : State L Tid} {cells : Fin L.ncpu → List ℕ}
  {place : ℕ → Option (Place L.ncpu Tid)}

theorem pgsize_pos : 0 < pgsize := by decide

theorem le_pgroundup (sz : ℕ) : sz ≤ pgroundup sz := by
  simp only [pgroundup, pgsize]
  omega

theorem pgroundup_mod (sz : ℕ) : pgroundup sz % pgsize = 0 :=
  Nat.mul_mod_left _ _

theorem Layout.IsPage.ne_zero {pa : ℕ} (h : L.IsPage pa) : pa ≠ 0 := by
  have hle := le_pgroundup L.kernelEnd
  have hpos := L.kernelEnd_pos
  have hrange := h.2.1
  omega

/-- `kfree` accepts exactly the pages it manages. -/
theorem Layout.IsPage.kfreePanics {pa : ℕ} (h : L.IsPage pa) :
    L.kfreePanics pa = false := by
  have hle := le_pgroundup L.kernelEnd
  obtain ⟨haligned, hlow, hhigh⟩ := h
  simp only [Layout.kfreePanics, haligned, ne_eq, not_true_eq_false, decide_false,
    Bool.false_or, Bool.or_eq_false_iff, decide_eq_false_iff_not]
  omega

omit [DecidableEq Tid] in
theorem Conserved.isPage_of_place (h : Conserved s cells place) {pa : ℕ}
    {somewhere : Place L.ncpu Tid} (hplace : place pa = some somewhere) : L.IsPage pa :=
  (h.pages pa).mp (by rw [hplace]; rfl)

/-- A thread moves on without changing the page in its hands. -/
theorem Conserved.goto (h : Conserved s cells place) {t : Tid} {pc : Pc L.ncpu}
    (hpage : pc.page = (s.pc t).page) (hrunning : pc ≠ .panicked) :
    Conserved (s.goto t pc) cells place where
  linked := h.linked
  pages := h.pages
  free := h.free
  owned := h.owned
  inCall pa t' := by
    rw [h.inCall]
    by_cases ht : t' = t
    · subst ht
      simp [State.goto, hpage]
    · simp [State.goto, ht]
  running t' := by
    by_cases ht : t' = t
    · subst ht
      simpa [State.goto] using hrunning
    · simpa [State.goto, ht] using h.running t'

omit [DecidableEq Tid] in
/-- Storing into a page that is on no free list disturbs no list. -/
theorem Conserved.store (h : Conserved s cells place) {pa value : ℕ}
    (hplace : ∀ i, place pa ≠ some (.free i)) :
    Conserved (s.withKmems
      { s.kmems with next := Function.update s.kmems.next pa value }) cells place where
  linked i := (h.linked i).update fun hmem => hplace i ((h.free pa i).mpr hmem)
  pages := h.pages
  free := h.free
  inCall := h.inCall
  owned := h.owned
  running := h.running

omit [DecidableEq Tid] in
/-- Moving one page: it suffices to say where `pa` is afterwards and that no
other page changed its place. -/
theorem Conserved.move (h : Conserved s cells place) {s' : State L Tid}
    {cells' : Fin L.ncpu → List ℕ} {pa : ℕ} {target : Place L.ncpu Tid}
    (hpage : L.IsPage pa)
    (hlinked : ∀ i, Linked s'.kmems.next (s'.kmems.freelist i) (cells' i))
    (hfree : ∀ pa' i, pa' ∈ cells' i ↔
      (pa' = pa ∧ .free i = target) ∨ (pa' ≠ pa ∧ pa' ∈ cells i))
    (hcall : ∀ pa' t, (s'.pc t).page = some pa' ↔
      (pa' = pa ∧ .inCall t = target) ∨ (pa' ≠ pa ∧ (s.pc t).page = some pa'))
    (howned : ∀ pa' t, s'.owner pa' = some t ↔
      (pa' = pa ∧ .owned t = target) ∨ (pa' ≠ pa ∧ s.owner pa' = some t))
    (hrunning : ∀ t, s'.pc t ≠ .panicked) :
    Conserved s' cells' (Function.update place pa (some target)) := by
  have hplace : ∀ pa' (somewhere : Place L.ncpu Tid),
      Function.update place pa (some target) pa' = some somewhere ↔
        (pa' = pa ∧ somewhere = target) ∨ (pa' ≠ pa ∧ place pa' = some somewhere) := by
    intro pa' somewhere
    by_cases hpa : pa' = pa
    · subst hpa
      simp [eq_comm]
    · simp [hpa]
  refine ⟨hlinked, fun pa' => ?_, fun pa' i => ?_, fun pa' t => ?_, fun pa' t => ?_,
    hrunning⟩
  · by_cases hpa : pa' = pa
    · subst hpa
      simpa using hpage
    · simpa [hpa] using h.pages pa'
  · rw [hplace, hfree, h.free]
  · rw [hplace, hcall, h.inCall]
  · rw [hplace, howned, h.owned]

omit [DecidableEq Tid] in
/-- A page in the hands of a call is on no free list. -/
theorem Conserved.not_free_of_inCall (h : Conserved s cells place) {t : Tid} {pa : ℕ}
    (hpage : (s.pc t).page = some pa) (i : Fin L.ncpu) : pa ∉ cells i := by
  intro hmem
  have hcall := (h.inCall pa t).mpr hpage
  rw [(h.free pa i).mpr hmem] at hcall
  simp at hcall

omit [DecidableEq Tid] in
theorem Conserved.inCall_unique (h : Conserved s cells place) {t t' : Tid} {pa : ℕ}
    (hleft : (s.pc t).page = some pa) (hright : (s.pc t').page = some pa) : t = t' := by
  have hcall := (h.inCall pa t).mpr hleft
  rw [(h.inCall pa t').mpr hright] at hcall
  simpa [eq_comm] using hcall

/-- `kalloc` takes the first page of a list into its hands. -/
theorem Conserved.pop (h : Conserved s cells place) {t : Tid} {id : Fin L.ncpu}
    (hpc : (s.pc t).page = none) (hsome : s.kmems.freelist id ≠ 0) :
    ∃ cells' place', Conserved ((s.withKmems (s.kmems.pop id).2).goto t
      (.kallocFill (s.kmems.pop id).1)) cells' place' := by
  obtain ⟨rest, hcells, hrest⟩ := (h.linked id).pop hsome
  set r := s.kmems.freelist id with hr
  have hpop : s.kmems.pop id = (r, { s.kmems with
      freelist := Function.update s.kmems.freelist id (s.kmems.next r) }) := by
    simp [Kmems.pop, ← hr, hsome]
  have hfree : place r = some (.free id) := (h.free r id).mpr (by simp [hcells])
  have hnodup : (r :: rest).Nodup := hcells ▸ (h.linked id).nodup
  refine ⟨Function.update cells id rest, Function.update place r (some (.inCall t)),
    h.move (h.isPage_of_place hfree) ?_ ?_ ?_ ?_ ?_⟩
  · intro i
    by_cases hi : i = id
    · subst hi
      simpa [hpop, State.goto, State.withKmems] using hrest
    · simpa [hpop, State.goto, State.withKmems, hi] using h.linked i
  · intro pa' i
    by_cases hi : i = id
    · subst hi
      simp only [Function.update_self, reduceCtorEq, and_false, false_or, hcells,
        List.mem_cons]
      constructor
      · intro hmem
        exact ⟨fun heq => (List.nodup_cons.mp hnodup).1 (heq ▸ hmem), Or.inr hmem⟩
      · rintro ⟨hne, heq | hmem⟩
        · exact absurd heq hne
        · exact hmem
    · simp only [Function.update_of_ne hi, reduceCtorEq, and_false, false_or]
      refine ⟨fun hmem => ⟨?_, hmem⟩, fun hmem => hmem.2⟩
      intro heq
      have := (h.free r i).mpr (heq ▸ hmem)
      rw [hfree, Option.some.injEq, Place.free.injEq] at this
      exact hi this.symm
  · intro pa' t'
    by_cases ht : t' = t
    · subst ht
      simp [hpop, State.goto, State.withKmems, hpc, eq_comm]
    · simp only [hpop, State.goto, State.withKmems, Function.update_of_ne ht,
        Place.inCall.injEq, ht, and_false, false_or]
      refine ⟨fun hpage => ⟨?_, hpage⟩, fun hpage => hpage.2⟩
      intro heq
      exact h.not_free_of_inCall (heq ▸ hpage) id (by simp [hcells])
  · intro pa' t'
    simp only [hpop, State.goto, State.withKmems, reduceCtorEq, and_false, false_or]
    refine ⟨fun hown => ⟨?_, hown⟩, fun hown => hown.2⟩
    intro heq
    have := (h.owned r t').mpr (heq ▸ hown)
    rw [hfree] at this
    simp at this
  · intro t'
    by_cases ht : t' = t
    · subst ht
      simp [State.goto]
    · simpa [State.goto, State.withKmems, ht] using h.running t'

/-- `kfree` puts the page in its hands in front of a list. -/
theorem Conserved.push (h : Conserved s cells place) {t : Tid} {pa : ℕ}
    {cpuId : Fin L.ncpu} (hpc : (s.pc t).page = some pa) :
    ∃ cells' place', Conserved ((s.withKmems (s.kmems.push cpuId pa)).goto t .idle)
      cells' place' := by
  have hcall : place pa = some (.inCall t) := (h.inCall pa t).mpr hpc
  have hpage : L.IsPage pa := h.isPage_of_place hcall
  have hfresh := h.not_free_of_inCall hpc
  refine ⟨Function.update cells cpuId (pa :: cells cpuId),
    Function.update place pa (some (.free cpuId)), h.move hpage ?_ ?_ ?_ ?_ ?_⟩
  · intro i
    by_cases hi : i = cpuId
    · subst hi
      simpa [State.goto, State.withKmems, Kmems.push] using
        (h.linked i).push hpage.ne_zero (hfresh i)
    · simpa [State.goto, State.withKmems, Kmems.push, hi] using
        (h.linked i).update (hfresh i)
  · intro pa' i
    by_cases hi : i = cpuId
    · subst hi
      simp only [Function.update_self, List.mem_cons, and_true]
      constructor
      · rintro (rfl | hmem)
        · exact Or.inl rfl
        · exact Or.inr ⟨fun heq => hfresh i (heq ▸ hmem), hmem⟩
      · rintro (rfl | ⟨-, hmem⟩)
        · exact Or.inl rfl
        · exact Or.inr hmem
    · simp only [Function.update_of_ne hi, Place.free.injEq, hi, and_false, false_or]
      refine ⟨fun hmem => ⟨?_, hmem⟩, fun hmem => hmem.2⟩
      rintro rfl
      exact hfresh i hmem
  · intro pa' t'
    by_cases ht : t' = t
    · subst ht
      simp [State.goto, State.withKmems, hpc, eq_comm]
    · simp only [State.goto, State.withKmems, Function.update_of_ne ht, reduceCtorEq,
        and_false, false_or]
      refine ⟨fun hother => ⟨?_, hother⟩, fun hother => hother.2⟩
      rintro rfl
      exact ht (h.inCall_unique hother hpc)
  · intro pa' t'
    simp only [State.goto, State.withKmems, reduceCtorEq, and_false, false_or]
    refine ⟨fun hown => ⟨?_, hown⟩, fun hown => hown.2⟩
    rintro rfl
    have := (h.owned pa' t').mpr hown
    rw [hcall] at this
    simp at this
  · intro t'
    by_cases ht : t' = t
    · subst ht
      simp [State.goto]
    · simpa [State.goto, State.withKmems, ht] using h.running t'

/-- `kalloc` returns the page in its hands: its caller owns it. -/
theorem Conserved.giveOut (h : Conserved s cells place) {t : Tid} {r : ℕ}
    (hpc : (s.pc t).page = some r) :
    ∃ place', Conserved ((s.setOwner r (some t)).goto t .idle) cells place' := by
  have hcall : place r = some (.inCall t) := (h.inCall r t).mpr hpc
  have hfresh := h.not_free_of_inCall hpc
  refine ⟨Function.update place r (some (.owned t)),
    h.move (h.isPage_of_place hcall) h.linked ?_ ?_ ?_ ?_⟩
  · intro pa' i
    simp only [reduceCtorEq, and_false, false_or]
    refine ⟨fun hmem => ⟨?_, hmem⟩, fun hmem => hmem.2⟩
    rintro rfl
    exact hfresh i hmem
  · intro pa' t'
    by_cases ht : t' = t
    · subst ht
      simp [State.goto, State.setOwner, hpc, eq_comm]
    · simp only [State.goto, State.setOwner, Function.update_of_ne ht, reduceCtorEq,
        and_false, false_or]
      refine ⟨fun hother => ⟨?_, hother⟩, fun hother => hother.2⟩
      rintro rfl
      exact ht (h.inCall_unique hother hpc)
  · intro pa' t'
    by_cases hpa : pa' = r
    · subst hpa
      simp [State.goto, State.setOwner, eq_comm]
    · simp [State.goto, State.setOwner, hpa]
  · intro t'
    by_cases ht : t' = t
    · subst ht
      simp [State.goto]
    · simpa [State.goto, State.setOwner, ht] using h.running t'

/-- A call of `kfree` takes the page from its owner. -/
theorem Conserved.takeBack (h : Conserved s cells place) {t t' : Tid} {pa : ℕ}
    (hpc : (s.pc t).page = none) (howner : s.owner pa = some t') :
    ∃ place', Conserved ((s.setOwner pa none).goto t (.kfreeFill pa)) cells place' := by
  have howned : place pa = some (.owned t') := (h.owned pa t').mpr howner
  refine ⟨Function.update place pa (some (.inCall t)),
    h.move (h.isPage_of_place howned) h.linked ?_ ?_ ?_ ?_⟩
  · intro pa' i
    simp only [reduceCtorEq, and_false, false_or]
    refine ⟨fun hmem => ⟨?_, hmem⟩, fun hmem => hmem.2⟩
    rintro rfl
    have := (h.free pa' i).mpr hmem
    rw [howned] at this
    simp at this
  · intro pa' u
    by_cases hu : u = t
    · subst hu
      simp [State.goto, State.setOwner, hpc, eq_comm]
    · simp only [State.goto, State.setOwner, Function.update_of_ne hu,
        Place.inCall.injEq, hu, and_false, false_or]
      refine ⟨fun hother => ⟨?_, hother⟩, fun hother => hother.2⟩
      rintro rfl
      have := (h.inCall pa' u).mpr hother
      rw [howned] at this
      simp at this
  · intro pa' u
    by_cases hpa : pa' = pa
    · subst hpa
      simp [State.goto, State.setOwner]
    · simp [State.goto, State.setOwner, hpa]
  · intro u
    by_cases hu : u = t
    · subst hu
      simp [State.goto]
    · simpa [State.goto, State.setOwner, hu] using h.running u

/-- Every step keeps the books. -/
theorem Conserved.step (h : Conserved s cells place) {s' : State L Tid}
    (hstep : Step L s s') : ∃ cells' place', Conserved s' cells' place' := by
  cases hstep with
  | @store t pa value howner =>
      refine ⟨cells, place, h.store fun i hplace => ?_⟩
      rw [(h.owned pa t).mpr howner] at hplace
      simp at hplace
  | @kfreeCall t t' pa hpc howner hcheck =>
      obtain ⟨place', h'⟩ := h.takeBack (t := t) (by simp [hpc]) howner
      exact ⟨cells, place', h'⟩
  | @kfreePanic t t' pa hpc howner hcheck =>
      have hpage := h.isPage_of_place ((h.owned pa t').mpr howner)
      simp [hpage.kfreePanics] at hcheck
  | @kfreeFill t pa hpc =>
      have hpage : (s.pc t).page = some pa := by simp [hpc]
      have hstored : Conserved (s.withKmems (s.kmems.memset pa 1)) cells place :=
        h.store fun i hplace => h.not_free_of_inCall hpage i ((h.free pa i).mp hplace)
      exact ⟨cells, place, hstored.goto (by simp [State.withKmems, hpc]) (by simp)⟩
  | kfreeCpu cpuId hpc => exact ⟨cells, place, h.goto (by simp [hpc]) (by simp)⟩
  | kfreePush hpc => exact h.push (by simp [hpc])
  | kallocCall hpc => exact ⟨cells, place, h.goto (by simp [hpc]) (by simp)⟩
  | kallocCpu cpuId hpc => exact ⟨cells, place, h.goto (by simp [hpc]) (by simp)⟩
  | kallocOwn hpc hsome => exact h.pop (by simp [hpc]) hsome
  | kallocOwnEmpty hpc hnone =>
      exact ⟨cells, place, h.goto (by simp [hpc]) (by simp)⟩
  | kallocSkip hpc hown => exact ⟨cells, place, h.goto (by simp [hpc]) (by simp)⟩
  | kallocSteal hpc hother hsome => exact h.pop (by simp [hpc]) hsome
  | kallocStealEmpty hpc hother hnone =>
      exact ⟨cells, place, h.goto (by simp [hpc]) (by simp)⟩
  | kallocFail hpc => exact ⟨cells, place, h.goto (by simp [hpc]) (by simp)⟩
  | @kallocReturn t r hpc =>
      have hpage : (s.pc t).page = some r := by simp [hpc]
      have hstored : Conserved (s.withKmems (s.kmems.memset r 5)) cells place :=
        h.store fun i hplace => h.not_free_of_inCall hpage i ((h.free r i).mp hplace)
      obtain ⟨place', h'⟩ := hstored.giveOut hpage
      exact ⟨cells, place', h'⟩

end Preservation

/-! ## Boot -/

section Boot

variable {L : Layout}

/-- The loop of `freerange` puts every page from `p` up to the end of memory on
the list of the boot CPU, in front of what is there. -/
theorem freerangeLoop_spec (cpuId : Fin L.ncpu) (fuel p : ℕ) (kmems : Kmems L.ncpu)
    (cells : List ℕ) (haligned : p % pgsize = 0) (hlow : pgroundup L.kernelEnd ≤ p)
    (hfuel : L.phystop ≤ p + fuel * pgsize)
    (hlinked : Linked kmems.next (kmems.freelist cpuId) cells)
    (hbelow : ∀ pa ∈ cells, pa < p) :
    ∃ kmems' cells', freerangeLoop L cpuId L.phystop fuel p kmems = some kmems' ∧
      Linked kmems'.next (kmems'.freelist cpuId) cells' ∧
      (∀ pa, pa ∈ cells' ↔ pa ∈ cells ∨ (L.IsPage pa ∧ p ≤ pa)) ∧
      ∀ i, i ≠ cpuId → kmems'.freelist i = kmems.freelist i := by
  have hnone : L.phystop < p + pgsize → ∀ pa, ¬ (L.IsPage pa ∧ p ≤ pa) := by
    rintro hend pa ⟨⟨hmod, -, hlt⟩, hle⟩
    have htop := L.phystop_aligned
    simp only [pgsize] at *
    omega
  induction fuel generalizing p kmems cells with
  | zero =>
      refine ⟨kmems, cells, rfl, hlinked, fun pa => ?_, fun _ _ => rfl⟩
      have := hnone (by have := pgsize_pos; omega) pa
      tauto
  | succ fuel ih =>
      by_cases hroom : p + pgsize ≤ L.phystop
      · have hpage : L.IsPage p :=
          ⟨haligned, hlow, by have := pgsize_pos; omega⟩
        have hfresh : p ∉ cells := fun hmem => absurd (hbelow p hmem) (Nat.lt_irrefl p)
        have hpushed : Linked ((kmems.memset p 1).push cpuId p).next
            (((kmems.memset p 1).push cpuId p).freelist cpuId) (p :: cells) := by
          simpa [Kmems.push, Kmems.memset] using hlinked.push hpage.ne_zero hfresh
        obtain ⟨kmems', cells', hloop, hlinked', hmem', hother'⟩ :=
          ih (p + pgsize) ((kmems.memset p 1).push cpuId p) (p :: cells)
            (by simp [haligned]) (by omega) (by rw [Nat.succ_mul] at hfuel; omega)
            hpushed (by
              intro pa hpa
              have := pgsize_pos
              rcases List.mem_cons.mp hpa with rfl | hpa
              · omega
              · have := hbelow pa hpa
                omega)
            (by
              rintro hend pa ⟨⟨hmod, -, hlt⟩, hle⟩
              have htop := L.phystop_aligned
              simp only [pgsize] at *
              omega)
        refine ⟨kmems', cells', ?_, hlinked', fun pa => ?_, fun i hi => ?_⟩
        · simp [freerangeLoop, hroom, kfree, hpage.kfreePanics, hloop]
        · rw [hmem', List.mem_cons]
          -- The next page above `p` is `p + PGSIZE`.
          constructor
          · rintro ((rfl | hmem) | ⟨hpa, hle⟩)
            · exact Or.inr ⟨hpage, Nat.le_refl _⟩
            · exact Or.inl hmem
            · exact Or.inr ⟨hpa, by omega⟩
          · rintro (hmem | ⟨hpa, hle⟩)
            · exact Or.inl (Or.inr hmem)
            · by_cases heq : pa = p
              · exact Or.inl (Or.inl heq)
              · refine Or.inr ⟨hpa, ?_⟩
                have hmod := hpa.1
                simp only [pgsize] at *
                omega
        · rw [hother' i hi]
          simp [Kmems.push, Kmems.memset, hi]
      · refine ⟨kmems, cells, by simp [freerangeLoop, hroom], hlinked, fun pa => ?_,
          fun _ _ => rfl⟩
        have := hnone (by omega) pa
        tauto

omit [DecidableEq Tid] in
/-- `kinit` does not panic, and afterwards all pages are on the list of the
boot CPU. -/
theorem kinit_conserved (bootCpu : Fin L.ncpu) (garbage : ℕ → ℕ) :
    ∃ kmems, kinit L bootCpu garbage = some kmems ∧
      ∃ cells place, Conserved (State.boot kmems : State L Tid) cells place := by
  classical
  have hdiv : L.phystop ≤ pgroundup L.kernelEnd +
      ((L.phystop - pgroundup L.kernelEnd) / pgsize + 1) * pgsize := by
    simp only [pgsize]
    omega
  obtain ⟨kmems, cells, hloop, hlinked, hmem, hother⟩ :=
    freerangeLoop_spec (L := L) bootCpu _ (pgroundup L.kernelEnd)
      ⟨fun _ => 0, garbage⟩ [] (pgroundup_mod _) (Nat.le_refl _) hdiv rfl (by simp)
  have hall : ∀ pa, pa ∈ cells ↔ L.IsPage pa := by
    intro pa
    rw [hmem]
    simp only [List.not_mem_nil, false_or, and_iff_left_iff_imp]
    exact fun hpage => hpage.2.1
  refine ⟨kmems, hloop, fun i => if i = bootCpu then cells else [],
    fun pa => if L.IsPage pa then some (.free bootCpu) else none, ?_, ?_, ?_, ?_, ?_, ?_⟩
  · intro i
    by_cases hi : i = bootCpu
    · subst hi
      simpa [State.boot] using hlinked
    · simpa [State.boot, hi] using hother i hi
  · intro pa
    by_cases hpage : L.IsPage pa <;> simp [hpage]
  · intro pa i
    by_cases hi : i = bootCpu
    · subst hi
      by_cases hpage : L.IsPage pa <;> simp [hpage, hall]
    · by_cases hpage : L.IsPage pa <;> simp [hpage, hi, Ne.symm hi]
  · intro pa t
    by_cases hpage : L.IsPage pa <;> simp [hpage, State.boot]
  · intro pa t
    by_cases hpage : L.IsPage pa <;> simp [hpage, State.boot]
  · intro t
    simp [State.boot]

end Boot

/-! ## Conservation -/

section Main

variable {L : Layout}

omit [DecidableEq Tid] in
theorem Conserved.onFreelist_iff {s : State L Tid} {cells : Fin L.ncpu → List ℕ}
    {place : ℕ → Option (Place L.ncpu Tid)} (h : Conserved s cells place)
    (i : Fin L.ncpu) (pa : ℕ) : OnFreelist s.kmems i pa ↔ pa ∈ cells i := by
  constructor
  · rintro ⟨cells', hlinked, hmem⟩
    rwa [hlinked.unique (h.linked i)] at hmem
  · exact fun hmem => ⟨cells i, h.linked i, hmem⟩

omit [DecidableEq Tid] in
theorem Conserved.at_iff {s : State L Tid} {cells : Fin L.ncpu → List ℕ}
    {place : ℕ → Option (Place L.ncpu Tid)} (h : Conserved s cells place)
    (pa : ℕ) (somewhere : Place L.ncpu Tid) :
    s.At pa somewhere ↔ place pa = some somewhere := by
  cases somewhere with
  | free i => exact (h.onFreelist_iff i pa).trans (h.free pa i).symm
  | inCall t => exact (h.inCall pa t).symm
  | owned t => exact (h.owned pa t).symm

/-- The books are kept in every state reachable from `kinit`. -/
theorem reachable_conserved (bootCpu : Fin L.ncpu) (garbage : ℕ → ℕ)
    {kmems : Kmems L.ncpu} {s : State L Tid}
    (hboot : kinit L bootCpu garbage = some kmems)
    (hreach : Reachable (Step L) (State.boot kmems) s) :
    ∃ cells place, Conserved s cells place := by
  have hstart : ∃ cells place, Conserved (State.boot kmems : State L Tid) cells place := by
    obtain ⟨kmems', hboot', hcons⟩ := kinit_conserved bootCpu garbage
    rw [hboot, Option.some.injEq] at hboot'
    subst hboot'
    exact hcons
  apply reachable_invariant
    (fun s : State L Tid => ∃ cells place, Conserved s cells place) hstart _ hreach
  intro before after hbefore hstep
  obtain ⟨cells, place, hcons⟩ := hbefore
  exact hcons.step hstep

/-- **Page conservation.**  In every state reachable from `kinit` by any
interleaving of `kalloc` and `kfree` calls, every free list ends and visits no
page twice, distinct lists share no page, the lists hold only pages of the
allocator, and every page of the allocator is in exactly one place: on one free
list, in the hands of one call, or owned by one caller. -/
theorem page_conservation (bootCpu : Fin L.ncpu) (garbage : ℕ → ℕ)
    {kmems : Kmems L.ncpu} {s : State L Tid}
    (hboot : kinit L bootCpu garbage = some kmems)
    (hreach : Reachable (Step L) (State.boot kmems) s) :
    (∀ i, ∃ cells, Linked s.kmems.next (s.kmems.freelist i) cells ∧ cells.Nodup) ∧
      (∀ i j pa, OnFreelist s.kmems i pa → OnFreelist s.kmems j pa → i = j) ∧
      (∀ pa somewhere, s.At pa somewhere → L.IsPage pa) ∧
      ∀ pa, L.IsPage pa → ∃! somewhere, s.At pa somewhere := by
  obtain ⟨cells, place, h⟩ := reachable_conserved bootCpu garbage hboot hreach
  refine ⟨fun i => ⟨cells i, h.linked i, (h.linked i).nodup⟩, fun i j pa hi hj => ?_,
    fun pa somewhere hat => ?_, fun pa hpage => ?_⟩
  · have hleft := (h.free pa i).mpr ((h.onFreelist_iff i pa).mp hi)
    have hright := (h.free pa j).mpr ((h.onFreelist_iff j pa).mp hj)
    rw [hleft] at hright
    simpa using hright
  · exact h.isPage_of_place ((h.at_iff pa somewhere).mp hat)
  · obtain ⟨somewhere, hplace⟩ := Option.isSome_iff_exists.mp ((h.pages pa).mpr hpage)
    refine ⟨somewhere, (h.at_iff pa somewhere).mpr hplace, fun other hother => ?_⟩
    have := (h.at_iff pa other).mp hother
    rw [hplace] at this
    simpa [eq_comm] using this

end Main

/-- Eight CPUs and three pages of memory after the kernel. -/
def threePages : Layout where
  ncpu := 8
  kernelEnd := 0x80020010
  phystop := 0x80024000
  kernelEnd_pos := by decide
  phystop_aligned := by decide
  phystop_lt := by decide
  kernelEnd_le := by decide

/-- CPU 3 finds its own list empty, steals the page that CPU 0 freed last, and
owns it in the end. -/
theorem page_conservation_steal : ∃ (kmems : Kmems 8) (s : State threePages ℕ),
    kinit threePages (0 : Fin 8) (fun _ => 0) = some kmems ∧
      Reachable (Step threePages) (State.boot kmems) s ∧
      s.owner 0x80023000 = some 7 ∧
      ∀ pa, threePages.IsPage pa → ∃! somewhere, s.At pa somewhere := by
  have heads : (kinit threePages (0 : Fin 8) (fun _ => 0)).map
      (fun kmems => (kmems.freelist (0 : Fin 8), kmems.freelist (3 : Fin 8))) =
        some (0x80023000, 0) := by decide +kernel
  obtain ⟨kmems, hboot, hheads⟩ := Option.map_eq_some_iff.mp heads
  obtain ⟨hfirst, hempty⟩ := Prod.mk.inj hheads
  have hpop : (kmems.pop (0 : Fin 8)).1 = 0x80023000 := by
    simp [Kmems.pop, hfirst]
  have hreach := Relation.ReflTransGen.refl (r := Step threePages)
    (a := (State.boot kmems : State threePages ℕ))
  replace hreach := hreach.tail (.kallocCall (t := 7) rfl)
  replace hreach := hreach.tail (.kallocCpu (t := 7) (3 : Fin 8) rfl)
  replace hreach := hreach.tail (.kallocOwnEmpty (t := 7) rfl (by exact hempty))
  replace hreach := hreach.tail (@Step.kallocSteal ℕ _ threePages _ 7 (3 : Fin 8) (0 : Fin 8)
    rfl (by simp [threePages]) (by simp [State.goto, State.boot, hfirst]))
  replace hreach := hreach.tail (.kallocReturn (t := 7) rfl)
  refine ⟨kmems, _, hboot, hreach, ?_, ?_⟩
  · simp [State.goto, State.setOwner, State.withKmems, State.boot, hpop]
  · exact (page_conservation (L := threePages) (0 : Fin 8) (fun _ => 0) hboot hreach).2.2.2

end OperateSystem.Kalloc

import OperateSystem.Vm.Access
import OperateSystem.Vm.Fork
import OperateSystem.Vm.Rollback

/-!
# The first process

`kvminit` and `procinit` take pages from the front of the free list and give none back, so
the list that they leave is a part of the one they have found.  After them `userinit` makes
the first process, which has one page of memory.
-/

namespace OperateSystem.Vm

open OperateSystem.PointerTree

/-- The kernel when `procinit` is done: no process is in use, and every entry has its kernel
stack. -/
structure Booted (L : Layout) (s : Kernel) : Prop where
  free : Apart s.machine ∅
  nonnull : 0 ∉ s.machine.free
  kstack : ∀ i, i < L.nproc → (s.proc i).kstack = L.kstack i
  kstackPa : ∀ i, i < L.nproc → (s.proc i).kstackPa < 2 ^ 52
  idle : ∀ i, i < L.nproc → Idle (s.proc i)

section Boot

variable {L : Layout} {m m' : Machine}

theorem kalloc_suffix (m : Machine) : m.kalloc.2.free <:+ m.free := by
  rw [Machine.kalloc]
  cases hfree : m.free with
  | nil => simp [hfree]
  | cons page free => exact List.suffix_cons page free

theorem walkLevel_suffix (m : Machine) (table : ℕ) (i : Fin 512) (alloc : Bool) :
    (walkLevel m table i alloc).2.free <:+ m.free := by
  have hsuffix := kalloc_suffix m
  rw [walkLevel]
  split
  · exact List.suffix_refl _
  · split
    · split <;> rename_i heq <;> rw [heq] at hsuffix <;> exact hsuffix
    · exact List.suffix_refl _

theorem walk_suffix {root va : ℕ} {alloc : Bool} {slot : Option Slot}
    (h : walk m root va alloc = .ok (slot, m')) : m'.free <:+ m.free := by
  have hfirst := walkLevel_suffix m root (px 2 va) alloc
  rw [walk] at h
  split at h
  · cases h
  · split at h
    · rename_i heq
      rw [heq] at hfirst
      cases h
      exact hfirst
    · rename_i table m₁ heq
      have hsecond := walkLevel_suffix m₁ table (px 1 va) alloc
      rw [heq] at hfirst
      split at h <;> rename_i heq' <;> rw [heq'] at hsecond <;> cases h <;>
        exact hsecond.trans hfirst

/-- `mappages` takes pages from the front of the free list. -/
theorem mappagesLoop_suffix {root last fuel a page : ℕ} {perm : Word} {ok : Bool}
    (h : mappagesLoop root last perm fuel a page m = .ok (ok, m')) : m'.free <:+ m.free := by
  induction fuel generalizing a page m with
  | zero => cases h
  | succ fuel ih =>
      rw [mappagesLoop] at h
      cases hwalk : walk m root a true with
      | error e =>
          rw [hwalk, error_bind] at h
          cases h
      | ok result =>
          obtain ⟨slot, m₁⟩ := result
          have hsuffix := walk_suffix hwalk
          rw [hwalk, ok_bind] at h
          cases slot with
          | none =>
              cases h
              exact hsuffix
          | some slot =>
              obtain ⟨table, i⟩ := slot
              dsimp only at h
              split at h
              · cases h
              · split at h
                · cases h
                  exact hsuffix
                · exact (ih h).trans hsuffix

theorem kvmmap_suffix {root va page size : ℕ} {perm : Word}
    (h : kvmmap m root va page size perm = .ok m') : m'.free <:+ m.free := by
  rw [kvmmap, kvmmapInto] at h
  cases hmap : mappages m root va size page perm with
  | error e =>
      rw [hmap, error_bind] at h
      cases h
  | ok result =>
      obtain ⟨ok, m₁⟩ := result
      rw [hmap, ok_bind] at h
      cases ok with
      | false => cases h
      | true =>
          cases h
          exact mappagesLoop_suffix hmap

/-- A result of two calls, one after the other. -/
theorem bind_eq_ok {α β : Type} {x : Except Fault α} {f : α → Except Fault β} {b : β}
    (h : (x >>= f) = .ok b) : ∃ a, x = .ok a ∧ f a = .ok b := by
  cases x with
  | error e => cases h
  | ok a => exact ⟨a, rfl, h⟩

theorem kvminit_suffix {page : ℕ} (h : kvminit L m = .ok (page, m')) : m'.free <:+ m.free := by
  have hsuffix := kalloc_suffix m
  rw [kvminit] at h
  split at h
  · rename_i root m₀ heq
    rw [heq] at hsuffix
    obtain ⟨m₁, h₁, h⟩ := bind_eq_ok h
    obtain ⟨m₂, h₂, h⟩ := bind_eq_ok h
    obtain ⟨m₃, h₃, h⟩ := bind_eq_ok h
    obtain ⟨m₄, h₄, h⟩ := bind_eq_ok h
    obtain ⟨m₅, h₅, h⟩ := bind_eq_ok h
    obtain ⟨m₆, h₆, h⟩ := bind_eq_ok h
    obtain ⟨m₇, h₇, h⟩ := bind_eq_ok h
    cases h
    calc m'.free <:+ m₆.free := kvmmap_suffix h₇
      _ <:+ m₅.free := kvmmap_suffix h₆
      _ <:+ m₄.free := kvmmap_suffix h₅
      _ <:+ m₃.free := kvmmap_suffix h₄
      _ <:+ m₂.free := kvmmap_suffix h₃
      _ <:+ m₁.free := kvmmap_suffix h₂
      _ <:+ (m₀.zero page).free := kvmmap_suffix h₁
      _ <:+ m.free := hsuffix
  · cases h

theorem Apart.suffix (h : Apart m ∅) (hsuffix : m'.free <:+ m.free) : Apart m' ∅ :=
  ⟨h.nodup.sublist hsuffix.sublist, by simp,
    fun page hpage => h.bounded page (hsuffix.subset hpage)⟩

/-- `procinit` gives every entry its kernel stack. -/
theorem procinit_spec {is : List ℕ} {s s' : Kernel} (h : procinit L is s = .ok s')
    (hapart : Apart s.machine ∅) :
    s'.machine.free <:+ s.machine.free ∧
      (∀ i, i ∈ is ∨ ((s.proc i).kstack = L.kstack i ∧ (s.proc i).kstackPa < 2 ^ 52) →
        (s'.proc i).kstack = L.kstack i ∧ (s'.proc i).kstackPa < 2 ^ 52) ∧
      ∀ i, Idle (s.proc i) → Idle (s'.proc i) := by
  induction is generalizing s with
  | nil =>
      cases h
      exact ⟨List.suffix_refl _, fun i hi => hi.resolve_left (by simp), fun i hi => hi⟩
  | cons i is ih =>
      rw [procinit] at h
      split at h
      · rename_i page m₁ hkalloc
        obtain ⟨m₂, hmap, h⟩ := bind_eq_ok h
        have hsuffix := kalloc_suffix s.machine
        rw [hkalloc] at hsuffix
        have hpage : page < 2 ^ 52 := by
          apply hapart.bounded
          rw [Machine.kalloc] at hkalloc
          split at hkalloc
          · cases hkalloc
          · rename_i hfree
            cases hkalloc
            simp [hfree]
        have htaken := (kvmmap_suffix hmap).trans hsuffix
        obtain ⟨hfree, hstack, hidle⟩ := ih h (hapart.suffix htaken)
        refine ⟨hfree.trans htaken, ?_, ?_⟩
        · intro j hj
          apply hstack
          by_cases heq : j = i
          · subst heq
            rw [Kernel.set_self]
            exact Or.inr ⟨rfl, hpage⟩
          · rw [Kernel.set_of_ne heq]
            exact hj.imp_left fun hmem => (List.mem_cons.mp hmem).resolve_left heq
        · intro j hj
          apply hidle
          by_cases heq : j = i
          · subst heq
            rw [Kernel.set_self]
            exact ⟨hj.state, hj.trapframe, hj.pagetable, hj.kPagetable, hj.sz⟩
          · rw [Kernel.set_of_ne heq]
            exact hj
      · cases h

/-- When the kernel has booted, no process is in use. -/
theorem boot_booted {s : Kernel} (hapart : Apart m ∅) (hnull : 0 ∉ m.free)
    (h : boot L m = .ok s) : Booted L s := by
  obtain ⟨⟨page, m₁⟩, hinit, h⟩ := bind_eq_ok h
  have hsuffix := kvminit_suffix hinit
  obtain ⟨hfree, hstack, hidle⟩ := procinit_spec h (hapart.suffix hsuffix)
  have htaken := hfree.trans hsuffix
  exact ⟨hapart.suffix htaken, fun hmem => hnull (htaken.subset hmem),
    fun i hi => (hstack i (Or.inl (List.mem_range.mpr hi))).1,
    fun i hi => (hstack i (Or.inl (List.mem_range.mpr hi))).2,
    fun i _ => hidle i ⟨rfl, rfl, rfl, rfl, rfl⟩⟩

theorem Booted.owners {s : Kernel} (h : Booted L s) : Owners L s := by
  have hnone : ∀ i, i < L.nproc → owned s.machine (s.proc i) = ∅ :=
    fun i hi => (h.idle i hi).owned_eq
  refine ⟨h.free, h.nonnull,
    fun i hi => ⟨h.kstack i hi, h.kstackPa i hi, Or.inl (h.idle i hi)⟩, ?_, ?_, ?_⟩
  · intro i hi page _
    rw [hnone i hi]
    exact Set.notMem_empty page
  · intro i hi
    rw [hnone i hi]
    exact Set.notMem_empty 0
  · intro i j hi _ _
    rw [hnone i hi]
    exact Set.empty_disjoint _

end Boot

/-- The first process. -/
def first (p : Proc) (pid frame user kern : ℕ) : Proc :=
  { embryo p pid frame user kern with
    sz := pgSize, name := safestrcpy "initcode".toList, state := .runnable }

section Userinit

variable {L : Layout} {m : Machine} {root : ℕ} {s s' : Kernel}

theorem insert_zero_eq : insert 0 ∅ = Set.Iio (pages pgSize) := by
  ext vpn
  have hone : pages pgSize = 1 := by decide
  simp [hone]

/-- `uvminit` maps page 0 for the user.  When there are no pages for that it comes to
grief, or goes on without the page. -/
theorem uvminit_spec (h : Space m.mem root ∅) (hapart : Apart m (held m.mem root ∅))
    (hvacant : entry m.mem root 0 = 0) {src : List (BitVec 8)} (hsrc : src.length < pgSize) :
    (∃ m' map, uvminit m root src = .ok m' ∧
      Change root ∅ (Set.Iio (pages pgSize)) (missing m.mem root {0}) map m m' ∧
      m.free.length ≤ m'.free.length + 3 ∧ pteFlags (map 0) = userPerm ||| pteV ∧
      ∀ vpn, vpn ≠ 0 → map vpn = entry m.mem root vpn) ∨
    (((∃ e, uvminit m root src = .error e) ∨
        ∃ m', uvminit m root src = .ok m' ∧ ¬ Valid (entry m'.mem root 0)) ∧
      m.free.length < 3) := by
  have hcard := card_missing_le_mul m.mem root {0}
  rw [Finset.card_singleton] at hcard
  have hnot : ¬ Valid (entry m.mem root 0) := by
    rw [hvacant]
    exact not_valid_zero
  have hperm : pteW ||| pteR ||| pteX ||| pteU = userPerm := by decide
  rw [uvminit, if_neg (Nat.not_le_of_lt hsrc), hperm]
  rcases acquire_spec h hapart (show 0 < 2 ^ 26 by decide) hnot (fun _ => 0)
    (show userPerm.toNat < 2 ^ 10 by decide) (show Leaf userPerm by decide) with
    ⟨page, m₁, m₂, hkalloc, hmap, hgrow, hcount, -, -, hbound, -⟩ | ⟨hkalloc, hnil⟩ |
    ⟨page, m₁, m₂, added, hkalloc, hmap, hback, -, hshort, -, -⟩
  · rw [insert_zero_eq] at hgrow
    have hmem : page ∈ targets m₂.mem root (Set.Iio (pages pgSize)) := by
      refine ⟨0, by decide, ?_⟩
      rw [hgrow.entry_eq 0 (by decide), Function.update_self, BitVec.or_assoc]
      exact pte2pa_entry hbound (by decide)
    have hfree : (m₂.write page 0 src).free = m₂.free := write_free 0 src
    have hother : ∀ other, other ∉ targets m₂.mem root (Set.Iio (pages pgSize)) →
        (m₂.write page 0 src).mem other = m₂.mem other := by
      intro other hout
      apply write_of_ne
      rintro rfl
      exact hout hmem
    have hboth := hgrow.toChange.trans
      (hgrow.space.touch (hgrow.toChange.apart hapart) hfree hother)
    rw [Finset.union_empty] at hboth
    refine Or.inl ⟨_, _, ?_, hboth.congr hgrow.entry_eq, ?_, ?_, ?_⟩
    · rw [hkalloc]
      simp only [Machine.zero]
      rw [Nat.mul_zero] at hmap
      rw [hmap]
      rfl
    · rw [hfree]
      omega
    · rw [Function.update_self, BitVec.or_assoc]
      exact pteFlags_entry hbound (by decide)
    · intro vpn hne
      exact Function.update_of_ne hne _ _
  · refine Or.inr ⟨Or.inl ?_, by omega⟩
    rw [hkalloc]
    exact ⟨_, rfl⟩
  · refine Or.inr ⟨Or.inr ⟨m₂.write page 0 src, ?_, ?_⟩, by omega⟩
    · rw [hkalloc]
      simp only [Machine.zero]
      rw [Nat.mul_zero] at hmap
      rw [hmap]
      rfl
    · -- The page is not mapped, and it is not one of the tables.
      have hsame : ∀ table ∈ tables (m₂.kfree page).mem root,
          (m₂.write page 0 src).mem table = (m₂.kfree page).mem table := by
        intro table htable
        have hne : table ≠ page := by
          rintro rfl
          exact hback.moves.apart table (List.mem_cons_self ..) (Or.inl htable)
        rw [write_of_ne hne]
        exact (fill_of_ne _ _ hne).symm
      rw [entry_frame hsame, hback.entry_eq 0 (by decide)]
      exact hnot

/-- `kvmcopy` does not mirror a page that is not mapped. -/
theorem kvmcopy_unmapped (L : Layout) {kern : ℕ} (h : ¬ Valid (entry m.mem root 0)) (m' : Machine) :
    kvmcopy L m root kern 0 pgSize ≠ .ok (true, m') := by
  rw [kvmcopy]
  split
  · intro hok
    cases hok
  · obtain ⟨-, e, hstuck⟩ := copyLoops_stuck (fun hboth => h hboth.2) kern 0
    rw [Nat.mul_zero] at hstuck
    have hone : (pgSize - pgRoundUp 0 + (pgSize - 1)) / pgSize = 0 + 1 := by decide
    have hstart : pgRoundUp 0 = 0 := by decide
    rw [hone, hstart, hstuck]
    intro hok
    cases hok

/-- The user table that `allocproc` has just made, as `uvminit` finds it. -/
theorem Vacancies.fresh_space (h : Vacancies L s) {j frame user kern : ℕ} {m₁ : Machine}
    (hj : j < L.nproc) (hidle : Idle (s.proc j))
    (hfresh : Fresh L s.machine m₁ (embryo (s.proc j) s.nextpid frame user kern) frame user kern) :
    L.phystop ≤ (embryo (s.proc j) s.nextpid frame user kern).kstack ∧ Space m₁.mem user ∅ ∧
      Apart m₁ (held m₁.mem user ∅) ∧ entry m₁.mem user 0 = 0 := by
  have hnone : pages (embryo (s.proc j) s.nextpid frame user kern).sz = 0 := by
    rw [hfresh.empty, pages]
  have hzero : Set.Iio (pages (embryo (s.proc j) s.nextpid frame user kern).sz) = ∅ := by
    rw [hfresh.empty, Iio_pages_zero]
  have hsep := hfresh.toSeparate
  have hmoves := hfresh.moves
  rw [hfresh.owned_eq] at hmoves
  rw [hzero] at hsep hmoves
  refine ⟨?_, hsep.space, ?_, ?_⟩
  · change L.phystop ≤ (s.proc j).kstack
    rw [h.kstack j hj hidle.state]
    exact L.kstack_ge j hj
  · exact (hmoves.keeps_apart h.free (by simp)).mono
      (Set.subset_union_left.trans Set.subset_union_right)
  · rw [hfresh.userRest 0 (by omega) (by decide), userMap_low L (by decide)]

/-- What `userinit` does once `allocproc` has given it an entry. -/
theorem userinit_eq {j frame user kern : ℕ} {m₁ : Machine}
    (halloc : allocproc L s
      = .ok (some j, s.enter j (embryo (s.proc j) s.nextpid frame user kern) m₁)) :
    userinit L s = (uvminit m₁ user initcode >>= fun m =>
      kvmcopy L m user kern 0 pgSize >>= fun result =>
        .ok (result.1, { s.enter j (first (s.proc j) s.nextpid frame user kern)
          ((result.2.store frame epc 0).store frame sp (BitVec.ofNat 64 pgSize)) with
          initproc := some j })) := by
  rw [userinit, halloc]
  simp only [ok_bind, deref, embryo, Kernel.enter, Kernel.set,
    Function.update_self, Function.update_idem]
  rfl

/-- `userinit` from `uvminit` on. -/
theorem Vacancies.userinit_fresh (h : Vacancies L s) {j frame user kern : ℕ} {m₁ : Machine}
    (hj : j < L.nproc) (hidle : Idle (s.proc j))
    (hfresh : Fresh L s.machine m₁ (embryo (s.proc j) s.nextpid frame user kern) frame user kern) :
    (∃ m₂ m₃ m', uvminit m₁ user initcode = .ok m₂ ∧
      kvmcopy L m₂ user kern 0 pgSize = .ok (true, m₃) ∧
      m' = (m₃.store frame epc 0).store frame sp (BitVec.ofNat 64 pgSize) ∧
      m₁.free.length ≤ m'.free.length + 5 ∧
      ∀ np : Proc, np.state ≠ .unused → np.sz = pgSize → np.kstack = (s.proc j).kstack →
        np.kstackPa = (s.proc j).kstackPa → np.trapframe = some frame →
        np.pagetable = some user → np.kPagetable = some kern →
        Live L m' np frame user kern ∧ Flagged m' user np.sz ∧
          Moves ∅ (owned m' np) s.machine m') ∨
    ((∀ m₂, uvminit m₁ user initcode = .ok m₂ →
        ∀ m₃, kvmcopy L m₂ user kern 0 pgSize ≠ .ok (true, m₃)) ∧
      (L.plic = 0 ∨ m₁.free.length < 5)) := by
  obtain ⟨hstack, hspace, hapart, hvacant⟩ := h.fresh_space hj hidle hfresh
  rcases uvminit_spec hspace hapart hvacant (show initcode.length < pgSize by decide) with
    ⟨m₂, map, hinit, hchange, hcount, hflags, hout⟩ | ⟨hwhy, hshort⟩
  · have hrest : ∀ vpn, pages pgSize ≤ vpn → vpn < 2 ^ 26 →
        entry m₂.mem user vpn = userMap L frame vpn := by
      intro vpn hlo hhi
      have hone : pages pgSize = 1 := by decide
      rw [hchange.entry_eq vpn hhi, hout vpn (by omega)]
      exact hfresh.userRest vpn (by rw [hfresh.empty, pages]; omega) hhi
    obtain ⟨ok, m₃, hcopy, hkeep, -, hmoves₃, hdone, hcount₃⟩ := hfresh.furnish h.free hstack
      hchange.space hchange.moves hrest (by decide)
    have hneed := kernNeed_le m₁ kern pgSize
    rw [show pages pgSize = 1 by decide] at hneed
    cases ok with
    | true =>
        rw [if_pos rfl] at hcount₃
        refine Or.inl ⟨m₂, m₃, _, hinit, hcopy, rfl, ?_, ?_⟩
        · change m₁.free.length ≤ m₃.free.length + 5
          omega
        · intro np hstate hsz hkstack hkstackPa hframe huser hkern
          have hlive₃ := hdone rfl np hstate hsz hkstack hkstackPa hframe huser hkern
          have howned₃ := hlive₃.owned_eq
          rw [hsz] at howned₃
          rw [← howned₃] at hmoves₃
          have hother : ∀ page, page ≠ frame →
              ((m₃.store frame epc 0).store frame sp (BitVec.ofNat 64 pgSize)).mem page
                = m₃.mem page := by
            intro page hne
            rw [store_of_ne _ _ _ hne, store_of_ne _ _ _ hne]
          have hlist : ((m₃.store frame epc 0).store frame sp (BitVec.ofNat 64 pgSize)).free
              = m₃.free := rfl
          obtain ⟨hlive', hmoves', hentry'⟩ := hlive₃.touch_frame
            (hmoves₃.keeps_apart h.free (by simp)) hlist hother
          refine ⟨hlive', ?_, hmoves₃.trans hmoves'⟩
          rw [hsz]
          have hone : ∀ vpn, vpn < pages pgSize → vpn = 0 := fun vpn hvpn => Nat.lt_one_iff.mp hvpn
          constructor
          · intro vpn hvpn
            rw [hone vpn hvpn, hentry', entry_frame (fun page hpage => hkeep page (Or.inl hpage)),
              hchange.entry_eq 0 (by decide), hflags]
            decide
          · intro vpn vpn' hvpn hvpn' _ _
            rw [hone vpn hvpn, hone vpn' hvpn']
    | false =>
        refine Or.inr ⟨?_, ?_⟩
        · intro m₂' hinit' m₃' hcopy'
          rw [hinit] at hinit'
          cases hinit'
          rw [hcopy] at hcopy'
          cases hcopy'
        · rcases hcount₃ with hlimit | hfew
          · rw [pgSize] at hlimit
            exact Or.inl (by omega)
          · exact Or.inr (by omega)
  · refine Or.inr ⟨?_, Or.inr (by omega)⟩
    intro m₂ hinit m₃
    rcases hwhy with ⟨e, herror⟩ | ⟨m₂', hok, hunmapped⟩
    · rw [herror] at hinit
      cases hinit
    · rw [hok] at hinit
      cases hinit
      exact kvmcopy_unmapped L hunmapped m₃

/-- `userinit` makes the first process, unless there are no pages for it. -/
theorem userinit_spec (h : Vacancies L s) :
    (∃ j np m', unusedEntry L s = some j ∧ j < L.nproc ∧
      userinit L s = .ok (true, { s.enter j np m' with initproc := some j }) ∧
      np.state = .runnable ∧ np.sz = pgSize ∧ np.kstack = L.kstack j ∧
      np.kstackPa = (s.proc j).kstackPa ∧
      (∃ frame user kern, Live L m' np frame user kern ∧ Flagged m' user np.sz) ∧
      Moves ∅ (owned m' np) s.machine m' ∧
      s.machine.free.length ≤ m'.free.length + processCost L (L.kstack j) + 5) ∨
    ((∀ s', userinit L s ≠ .ok (true, s')) ∧
      (unusedEntry L s = none ∨ L.plic = 0 ∨ s.machine.free.length < 2 ^ 13 + 5)) := by
  have hfail : ∀ {x : Except Fault (Bool × Kernel)} {e : Fault}, x = .error e →
      ∀ s', x ≠ .ok (true, s') := by
    rintro x e rfl s' hx
    cases hx
  rcases allocproc_spec h with ⟨hnone, halloc⟩ | ⟨j, hfind, hj, hidle, hcases⟩
  · refine Or.inr ⟨hfail (e := .null) ?_, Or.inl hnone⟩
    rw [userinit, halloc]
    rfl
  · have hcost := processCost_lt L (L.kstack j)
    rcases hcases with ⟨hwhy, p, m', halloc, -⟩ | ⟨-, hshort, e, halloc⟩ |
      ⟨m₁, frame, user, kern, halloc, hfresh⟩
    · refine Or.inr ⟨hfail (e := .null) ?_, Or.inr (Or.inr (by omega))⟩
      rw [userinit, halloc]
      rfl
    · refine Or.inr ⟨hfail (e := e) ?_, Or.inr (Or.inr ?_)⟩
      · rw [userinit, halloc]
        rfl
      · rw [processCost] at hcost
        omega
    · have hcount : s.machine.free.length = m₁.free.length + processCost L (L.kstack j) := by
        have hcount := hfresh.count
        rw [← h.kstack j hj hidle.state]
        exact hcount
      have hunfold := userinit_eq halloc
      rcases h.userinit_fresh hj hidle hfresh with ⟨m₂, m₃, m', hinit, hcopy, rfl, hfree, hdone⟩ |
        ⟨hnot, hwhy⟩
      · obtain ⟨hlive, hflags, hmoves⟩ := hdone (first (s.proc j) s.nextpid frame user kern)
          (show ProcState.runnable ≠ .unused by decide) rfl rfl rfl rfl rfl rfl
        refine Or.inl ⟨j, first (s.proc j) s.nextpid frame user kern, _, hfind, hj, ?_, rfl, rfl,
          h.kstack j hj hidle.state, rfl,
          ⟨frame, user, kern, hlive, hflags⟩, hmoves, ?_⟩
        · rw [hunfold, hinit, ok_bind, hcopy, ok_bind]
        · omega
      · refine Or.inr ⟨?_, Or.inr (hwhy.imp_right fun hfew => by omega)⟩
        intro s' hok
        rw [hunfold] at hok
        obtain ⟨m₂, hinit, hok⟩ := bind_eq_ok hok
        obtain ⟨⟨ok, m₃⟩, hcopy, hok⟩ := bind_eq_ok hok
        cases hok
        exact hnot m₂ hinit m₃ hcopy

/-- `userinit` gives an entry of the table its turn. -/
theorem Owners.userinit (h : Owners L s) (hinit : userinit L s = .ok (true, s')) :
    ∃ j, Turn L s s' j := by
  rcases userinit_spec h.vacancies with
    ⟨j, np, m', hfind, hj, hok, -, -, hkstack, hkstackPa, hlive, hmoves, -⟩ | ⟨hnot, -⟩
  · rw [hok] at hinit
    cases hinit
    have hunused : (s.proc j).state = .unused := by
      rw [unusedEntry] at hfind
      simpa using List.find?_some hfind
    have ht : Turn L s (s.set j np m') j := by
      refine Turn.set hj ?_ ⟨hkstack, ?_, Or.inr hlive⟩ hkstackPa
      · rw [(h.idle hj hunused).owned_eq]
        exact hmoves
      · rw [hkstackPa]
        exact (h.sound j hj).kstackPa
    exact ⟨j, { ht with }⟩
  · exact absurd hinit (hnot s')

/-- After `userinit` the pages of the first process are apart from the free ones. -/
theorem Booted.userinit (h : Booted L s) (hinit : userinit L s = .ok (true, s')) :
    Owners L s' := by
  obtain ⟨j, ht⟩ := h.owners.userinit hinit
  exact h.owners.turn ht

end Userinit

end OperateSystem.Vm

import Mathlib.Algebra.BigOperators.Fin
import Mathlib.Algebra.Order.BigOperators.Group.Finset
import Mathlib.Data.Fintype.BigOperators
import OperateSystem.Syscall.Discipline

/-!
# Descriptors and the file table

Any number of processes run handlers, interleaved at their calls.  The file table itself is
not in this repository: what is assumed of it is that it counts the references that it gives
and takes.  Then the counts are those of the descriptors, whatever the interleaving is.
-/

namespace OperateSystem.Syscall

open OperateSystem.Invariant OperateSystem.Session
open scoped BigOperators

variable {P F I S : Type} [DecidableEq F] [DecidableEq I]

/-! ## Entering handlers -/

variable (H : Headers)

/-- The handlers that have to do with files. -/
def handlers : List (Kern P F I Int) :=
  [sysDup H, sysRead H, sysWrite H, sysClose H, sysFstat H, sysPipe H, sysLink H, sysUnlink H,
    sysOpen H, sysMkdir H, sysMknod H, sysChdir H, sysExec H, fork H]

/-- A process outside of handlers may enter any of them, or exit. -/
inductive Enters (own : Own P F I) : Kern P F I Unit → Prop
  | serve (halive : own.alive = true) {handler : Kern P F I Int}
      (hhandler : handler ∈ handlers H) : Enters own (handler >>= fun _ => pure ())
  | exit (halive : own.alive = true) : Enters own (exit H)

/-- A process between handlers, or none. -/
def Rests (own : Own P F I) : Prop := own = vacant ∨ ∃ ofile c, own = calm H ofile c

section Enters

variable {H} {own : Own P F I}

omit [DecidableEq F] [DecidableEq I] in
/-- A handler that leaves a process calm. -/
theorem rests_of_eq {ofile : ℕ → Option F} {c : I} (h : own = calm H ofile c) : Rests H own :=
  Or.inr ⟨ofile, c, h⟩

/-- Every handler keeps to the contract and takes the process back to rest. -/
theorem handlers_meet (ofile : ℕ → Option F) (c : I) {handler : Kern P F I Int}
    (h : handler ∈ handlers H) :
    handler.Meets (contract H) (fun _ own => Rests H own) (calm H ofile c) := by
  revert handler
  simp only [handlers, List.forall_mem_cons]
  refine ⟨?dup, ?read, ?write, ?close, ?fstat, ?pipe, ?link, ?unlink, ?opens, ?mkdir, ?mknod,
    ?chdir, ?exec, ?fork, nofun⟩
  case dup =>
    refine sysDup_meets.of_logged ?_
    rintro r own log (⟨-, h⟩ | ⟨arg, old, fd, f, -, -, -, -, -, -, h⟩)
    · exact rests_of_eq h
    · exact rests_of_eq h
  case read => exact sysRead_meets.mono fun _ _ => rests_of_eq
  case write => exact sysWrite_meets.mono fun _ _ => rests_of_eq
  case close =>
    refine sysClose_meets.mono ?_
    rintro r own (⟨-, h⟩ | ⟨fd, -, -, -, h⟩)
    · exact rests_of_eq h
    · exact rests_of_eq h
  case fstat => exact sysFstat_meets.mono fun _ _ => rests_of_eq
  case pipe =>
    refine sysPipe_meets.of_logged ?_
    rintro r own log (⟨-, h⟩ | ⟨fdarray, fd0, fd1, rf, wf, -, -, -, -, -, -, -, h⟩)
    · exact rests_of_eq h
    · exact rests_of_eq h
  case link => exact sysLink_meets.mono fun _ _ => rests_of_eq
  case unlink => exact sysUnlink_meets.mono fun _ _ => rests_of_eq
  case opens =>
    refine sysOpen_meets.of_logged ?_
    rintro r own log (⟨-, h⟩ | ⟨fd, f, -, -, -, h⟩)
    · exact rests_of_eq h
    · exact rests_of_eq h
  case mkdir => exact sysMkdir_meets.mono fun _ _ => rests_of_eq
  case mknod => exact sysMknod_meets.mono fun _ _ => rests_of_eq
  case chdir =>
    refine sysChdir_meets.mono ?_
    rintro r own (⟨-, h⟩ | ⟨ip, -, h⟩)
    · exact rests_of_eq h
    · exact rests_of_eq h
  case exec => exact sysExec_meets.mono fun _ _ => rests_of_eq
  case fork => exact fork_meets.mono fun _ _ => rests_of_eq

theorem Enters.meets {p : Kern P F I Unit} (hrests : Rests H own) (h : Enters H own p) :
    p.Meets (contract H) (fun _ own => Rests H own) own := by
  cases h with
  | serve halive hhandler =>
      rcases hrests with rfl | ⟨ofile, c, rfl⟩
      · cases halive
      · exact Prog.meets_bind.mpr ((handlers_meet ofile c hhandler).mono fun _ _ h => h)
  | exit halive =>
      rcases hrests with rfl | ⟨ofile, c, rfl⟩
      · cases halive
      · exact exit_meets.mono fun _ _ h => Or.inl h

end Enters

/-! ## The kernel under the handlers -/

/-- The calls that neither give nor take a reference to a file. -/
def Quiet : (op : Op P F I) → Answer op → Prop
  | .filealloc, answer => answer = none
  | .pipealloc, answer => answer = none
  | .filedup _, _ | .fileclose _, _ => False
  | _, _ => True

/-- The kernel under the handlers, with the reference counts of its file table.  `filealloc`
gives a file without references its first one, and `filedup` and `fileclose`, which panic at a
file without references, add and take one. -/
structure FileTable (P F I S : Type) [DecidableEq F] where
  ref : S → F → ℕ
  acts : S → (op : Op P F I) → Answer op → S → Prop
  filealloc : ∀ s f s', acts s .filealloc (some f) s' →
    ref s f = 0 ∧ ref s' = Function.update (ref s) f 1
  pipealloc : ∀ s rf wf s', acts s .pipealloc (some (rf, wf)) s' →
    ref s rf = 0 ∧ ref s wf = 0 ∧ rf ≠ wf ∧
      ref s' = Function.update (Function.update (ref s) rf 1) wf 1
  filedup : ∀ s f answer s', acts s (.filedup f) answer s' → 1 ≤ ref s f →
    ref s' = Function.update (ref s) f (ref s f + 1)
  fileclose : ∀ s f answer s', acts s (.fileclose f) answer s' → 1 ≤ ref s f →
    ref s' = Function.update (ref s) f (ref s f - 1)
  quiet : ∀ s op answer s', acts s op answer s' → Quiet op answer → ref s' = ref s

variable [DecidableEq P] (T : FileTable P F I S)

/-- An entry of the process table that `allocproc` can take. -/
def Free (own : P → Own P F I) (np : P) : Prop :=
  own np = vacant ∧ ∀ j e, (own j).child ≠ some (np, e)

/-- What `allocproc` takes is free. -/
def Takes (own : P → Own P F I) : (op : Op P F I) → Answer op → Prop
  | .allocproc, answer => ∀ np, answer = some np → Free own np
  | _, _ => True

/-- A child that is made runnable is a process of its own. -/
def born (own : P → Own P F I) (i : P) : Op P F I → P → Own P F I
  | .runnable _ =>
      match (own i).child with
      | some (np, ⟨ofile, some c⟩) => Function.update own np (calm H ofile c)
      | _ => own
  | _ => own

/-- What the rest of the kernel does for a call of the process `i`. -/
structure Answers (s : S) (own : P → Own P F I) (i : P) (op : Op P F I) (answer : Answer op)
    (s' : S) (own' : P → Own P F I) : Prop where
  legal : (own i).legal op answer
  takes : Takes own op answer
  acts : T.acts s op answer s'
  own : own' = Function.update (born H own i op) i ((own i).after op answer)

/-- The kernel: the file table and the processes, each with what it has. -/
abbrev FileWorld (S P F I : Type) : Type := World S P (Own P F I) (Op P F I) Answer

/-- A step of the kernel. -/
def HandlerStep (w w' : FileWorld S P F I) : Prop :=
  World.Step (Enters H) (Answers H T) w w'

/-- The first process runs, without files and in the root directory, and the file table is
empty. -/
structure Boot (first : P) (root : I) (w : FileWorld S P F I) : Prop where
  ref : ∀ f, T.ref w.shared f = 0
  own : w.own first = calm H (fun _ => none) root
  others : ∀ i, i ≠ first → w.own i = vacant
  running : ∀ i, w.running i = none

/-! ## A small system -/

section Small

/-- A file table that is nothing but its counts. -/
def counts (P F I : Type) [DecidableEq F] : FileTable P F I (F → ℕ) where
  ref s := s
  acts s op answer s' :=
    match op with
    | .filealloc =>
        match answer with
        | some f => s f = 0 ∧ s' = Function.update s f 1
        | none => (∀ f, s f ≠ 0) ∧ s' = s
    | .pipealloc =>
        match answer with
        | some (rf, wf) => s rf = 0 ∧ s wf = 0 ∧ rf ≠ wf ∧
            s' = Function.update (Function.update s rf 1) wf 1
        | none => s' = s
    | .filedup f => 1 ≤ s f ∧ s' = Function.update s f (s f + 1)
    | .fileclose f => 1 ≤ s f ∧ s' = Function.update s f (s f - 1)
    | _ => s' = s
  filealloc _ _ _ h := h
  pipealloc _ _ _ _ h := h
  filedup _ _ _ _ h _ := h.2
  fileclose _ _ _ _ h _ := h.2
  quiet s op answer s' h hquiet := by
    cases op with
    | filealloc =>
        cases (show answer = none from hquiet)
        exact h.2
    | pipealloc =>
        cases (show answer = none from hquiet)
        exact h
    | filedup f => exact hquiet.elim
    | fileclose f => exact hquiet.elim
    | _ => exact h

/-- Two descriptors for each process. -/
def twoFiles : Headers where
  nofile := 2
  maxArg := 32
  ndev := 10
  tDir := 1
  tFile := 2
  tDevice := 3
  oRdonly := 0
  oWronly := 1
  oRdwr := 2
  oCreate := 0x200
  oTrunc := 0x400

/-- Two entries in the process table and three in the file table, at boot. -/
def twoProcesses : FileWorld (Fin 3 → ℕ) (Fin 2) (Fin 3) Unit where
  shared _ := 0
  own i := if i = 0 then calm twoFiles (fun _ => none) () else vacant
  running _ := none

theorem twoProcesses_boot : Boot twoFiles (counts (Fin 2) (Fin 3) Unit) 0 () twoProcesses where
  ref _ := rfl
  own := rfl
  others _ hi := if_neg hi
  running _ := rfl

section Beginnings

variable {H} {T : FileTable P F I S} {w : FileWorld S P F I}
  {goal : FileWorld S P F I → Prop}

/-- A run that begins with a handler. -/
theorem exists_served (i : P) (handler : Kern P F I Int) (hidle : w.running i = none)
    (halive : (w.own i).alive = true) (hhandler : handler ∈ handlers H)
    (hrest : ∃ w', Reachable (HandlerStep H T) ⟨w.shared, w.own, Function.update w.running i
      (handler >>= fun _ => pure ()).rest⟩ w' ∧ goal w') :
    ∃ w', Reachable (HandlerStep H T) w w' ∧ goal w' := by
  obtain ⟨w', hrun, hgoal⟩ := hrest
  exact ⟨w', hrun.head (World.Step.enter hidle (Enters.serve halive hhandler)), hgoal⟩

/-- A run that begins with an answer. -/
theorem exists_answered (i : P) (op : Op P F I) {next : Answer op → Kern P F I Unit}
    (answer : Answer op) (s : S) (hrunning : w.running i = some (.call op next))
    (hlegal : (w.own i).legal op answer) (htakes : Takes w.own op answer)
    (hacts : T.acts w.shared op answer s)
    (hrest : ∃ w', Reachable (HandlerStep H T) ⟨s, Function.update (born H w.own i op) i
      ((w.own i).after op answer), Function.update w.running i (next answer).rest⟩ w' ∧ goal w') :
    ∃ w', Reachable (HandlerStep H T) w w' ∧ goal w' := by
  obtain ⟨w', hrun, hgoal⟩ := hrest
  exact ⟨w', hrun.head (World.Step.call hrunning ⟨hlegal, htakes, hacts, rfl⟩), hgoal⟩

end Beginnings

/-- The counts after a pipe has been made. -/
def pipeCounts : Fin 3 → ℕ := Function.update (Function.update (fun _ => 0) 0 1) 1 1

/-- The first process makes a pipe. -/
theorem exists_pipe_run : ∃ w, Reachable (HandlerStep twoFiles (counts (Fin 2) (Fin 3) Unit))
    twoProcesses w ∧ (∀ i, w.running i = none) ∧ (w.own 0).ofile 0 = some 0 ∧
      (w.own 0).ofile 1 = some 1 := by
  refine exists_served 0 (sysPipe twoFiles) rfl rfl (by simp [handlers]) ?_
  refine exists_answered 0 (.argaddr 0) (some 0) (fun _ => 0) rfl trivial trivial rfl ?_
  refine exists_answered 0 .pipealloc (some (0, 1)) pipeCounts rfl trivial trivial
    ⟨rfl, rfl, by decide, rfl⟩ ?_
  refine exists_answered 0 (.ofile 0) none pipeCounts rfl rfl trivial rfl ?_
  refine exists_answered 0 (.setOfile 0 (some 0)) () pipeCounts rfl trivial trivial rfl ?_
  refine exists_answered 0 (.ofile 0) (some 0) pipeCounts rfl rfl trivial rfl ?_
  refine exists_answered 0 (.ofile 1) none pipeCounts rfl rfl trivial rfl ?_
  refine exists_answered 0 (.setOfile 1 (some 1)) () pipeCounts rfl trivial trivial rfl ?_
  refine exists_answered 0 (.copyout 0 0) true pipeCounts rfl trivial trivial rfl ?_
  refine exists_answered 0 (.copyout 4 1) true pipeCounts rfl trivial trivial rfl ?_
  exact ⟨_, Relation.ReflTransGen.refl, Fin.forall_fin_two.mpr ⟨rfl, rfl⟩, rfl, rfl⟩

end Small

/-! ## Counting references -/

/-- The references to files that a process holds, for itself and for the child that it makes. -/
def references (own : Own P F I) : Multiset F :=
  own.held + match own.child with
    | some (_, e) => files H.nofile e.ofile
    | none => 0

/-- The file table counts the references that the processes hold, and a child in the making has
one parent. -/
structure Counted [Fintype P] (s : S) (own : P → Own P F I) : Prop where
  ref : ∀ f, T.ref s f = ∑ i, (references H (own i)).count f
  child : ∀ i np e, (own i).child = some (np, e) →
    own np = vacant ∧ ∀ j e', (own j).child = some (np, e') → j = i

section Counting

variable {H} {T} {s s' : S} {i : P} {op : Op P F I} {answer : Answer op}

omit [DecidableEq F] [DecidableEq I] [DecidableEq P] in
theorem references_refer (own : Own P F I) (ip : Option I) :
    references H (own.refer ip) = references H own := by
  cases ip <;> rfl

omit [DecidableEq F] [DecidableEq I] [DecidableEq P] in
theorem references_find (own : Own P F I) (ip : Option I) :
    references H (own.find ip) = references H own := by
  cases ip <;> rfl

omit [DecidableEq P] in
/-- A call changes the count of a file and the references of the caller alike. -/
theorem ref_after {own : Own P F I} (hallows : own.allows H op) (hacts : T.acts s op answer s')
    (hheld : ∀ f ∈ own.held, 1 ≤ T.ref s f) (hop : ∀ np, op ≠ .runnable np) (f : F) :
    T.ref s' f + (references H own).count f
      = T.ref s f + (references H (own.after op answer)).count f := by
  have hquiet : Quiet op answer → references H (own.after op answer) = references H own →
      T.ref s' f + (references H own).count f
        = T.ref s f + (references H (own.after op answer)).count f := by
    intro hquiet hsame
    rw [T.quiet s op answer s' hacts hquiet, hsame]
  cases op with
  | filealloc =>
      cases answer with
      | none => exact hquiet rfl rfl
      | some g =>
          obtain ⟨hzero, hafter⟩ := T.filealloc s g s' hacts
          rw [hafter]
          by_cases hfg : f = g
          · subst hfg
            simp [references, hzero]
            omega
          · simp [references, hfg]
  | filedup g =>
      have hafter := T.filedup s g answer s' hacts (hheld g hallows)
      rw [hafter]
      by_cases hfg : f = g
      · subst hfg
        simp [references]
        omega
      · simp [references, hfg]
  | fileclose g =>
      have hone := hheld g hallows.1
      have hafter := T.fileclose s g answer s' hacts hone
      rw [hafter]
      by_cases hfg : f = g
      · subst hfg
        have hcount := Multiset.count_pos.mpr hallows.1
        simp [references]
        omega
      · simp [references, hfg, Multiset.count_erase_of_ne hfg]
  | pipealloc =>
      cases answer with
      | none => exact hquiet rfl rfl
      | some fs =>
          obtain ⟨rf, wf⟩ := fs
          obtain ⟨hrf, hwf, hne, hafter⟩ := T.pipealloc s rf wf s' hacts
          rw [hafter]
          by_cases hf : f = wf
          · subst hf
            simp [references, hwf, hne.symm]
            omega
          · by_cases hfr : f = rf
            · subst hfr
              simp [references, hrf, hf]
              omega
            · simp [references, hf, hfr]
  | childOfile np fd g =>
      obtain ⟨e, hchild, hfree, hfd, hg⟩ := hallows
      refine hquiet trivial ?_
      simp [references, hchild, files_set hfd hfree]
      rw [← Multiset.cons_add, Multiset.cons_erase hg]
  | childCwd np ip =>
      obtain ⟨e, hchild, -⟩ := hallows
      refine hquiet trivial ?_
      simp [references, hchild]
  | allocproc =>
      refine hquiet trivial ?_
      cases answer with
      | none => rfl
      | some np =>
          have hchild : own.child = none := hallows
          simp [references, hchild, files_none]
  | freeproc np =>
      obtain ⟨e, hchild, hnone, -⟩ := hallows
      refine hquiet trivial ?_
      have hofile : e.ofile = fun _ => none := funext hnone
      simp [references, hchild, hofile, files_none]
  | runnable np => exact absurd rfl (hop np)
  | namei path => exact hquiet trivial (references_refer own answer)
  | nameiparent path => exact hquiet trivial (references_refer own (answer.map Prod.fst))
  | ialloc dev type => exact hquiet trivial (references_find own answer)
  | dirlookup dp name =>
      refine hquiet trivial ?_
      simp only [Own.after]
      split
      · exact references_find own (answer.map Prod.fst)
      · exact references_refer own (answer.map Prod.fst)
  | kalloc =>
      refine hquiet trivial ?_
      cases answer <;> rfl
  | _ => exact hquiet trivial rfl

omit [DecidableEq P] in
/-- A child in the making stays the same, or `allocproc` has just taken it. -/
theorem child_after {own : P → Own P F I} {np : P} {e : Embryo F I}
    (hallows : (own i).allows H op) (htakes : Takes own op answer)
    (h : ((own i).after op answer).child = some (np, e)) :
    (∃ e', (own i).child = some (np, e')) ∨ Free own np := by
  cases op with
  | allocproc =>
      cases answer with
      | none => exact Or.inl ⟨e, h⟩
      | some np' =>
          cases h
          exact Or.inr (htakes np rfl)
  | freeproc np' => cases h
  | runnable np' => cases h
  | childOfile np' fd f =>
      obtain ⟨e', hchild, -⟩ := hallows
      simp [hchild] at h
      exact Or.inl ⟨e', h.1 ▸ hchild⟩
  | childCwd np' ip =>
      obtain ⟨e', hchild, -⟩ := hallows
      simp [hchild] at h
      exact Or.inl ⟨e', h.1 ▸ hchild⟩
  | filealloc => cases answer <;> exact Or.inl ⟨e, h⟩
  | pipealloc => cases answer <;> exact Or.inl ⟨e, h⟩
  | namei path => cases answer <;> exact Or.inl ⟨e, h⟩
  | nameiparent path => cases answer <;> exact Or.inl ⟨e, h⟩
  | ialloc dev type => cases answer <;> exact Or.inl ⟨e, h⟩
  | dirlookup dp name =>
      simp only [Own.after] at h
      split at h <;> cases answer <;> exact Or.inl ⟨e, h⟩
  | kalloc => cases answer <;> exact Or.inl ⟨e, h⟩
  | _ => exact Or.inl ⟨e, h⟩

omit [DecidableEq F] [DecidableEq I] in
/-- The sum over all processes when one changes. -/
theorem sum_update [Fintype P] (g : Own P F I → ℕ) (own : P → Own P F I) (i : P) (x : Own P F I) :
    ∑ j, g (Function.update own i x j) + g (own i) = ∑ j, g (own j) + g x := by
  rw [← Finset.add_sum_erase Finset.univ _ (Finset.mem_univ i),
    ← Finset.add_sum_erase Finset.univ (fun j => g (own j)) (Finset.mem_univ i),
    Function.update_self]
  have hrest : ∑ j ∈ Finset.univ.erase i, g (Function.update own i x j)
      = ∑ j ∈ Finset.univ.erase i, g (own j) := by
    refine Finset.sum_congr rfl fun j hj => ?_
    rw [Function.update_of_ne (Finset.ne_of_mem_erase hj)]
  omega

omit [DecidableEq I] [DecidableEq P] in
/-- What a process holds is in the count. -/
theorem Counted.held [Fintype P] {own : P → Own P F I} (h : Counted H T s own) (i : P) (f : F)
    (hf : f ∈ (own i).held) : 1 ≤ T.ref s f := by
  rw [h.ref]
  have hmem : f ∈ references H (own i) := Multiset.mem_add.mpr (Or.inl hf)
  exact (Multiset.count_pos.mpr hmem).trans_le
    (Finset.single_le_sum (f := fun j => (references H (own j)).count f)
      (fun _ _ => Nat.zero_le _) (Finset.mem_univ i))

omit [DecidableEq I] in
/-- A child that becomes a process takes the references that its parent has held for it. -/
theorem Counted.birth [Fintype P] {own : P → Own P F I} (h : Counted H T s own) {np : P}
    {ofile : ℕ → Option F} {c : I} (halive : (own i).alive = true)
    (hchild : (own i).child = some (np, ⟨ofile, some c⟩)) (href : T.ref s' = T.ref s) :
    Counted H T s' (Function.update (Function.update own np (calm H ofile c)) i
      { own i with child := none }) := by
  obtain ⟨hvacant, hparent⟩ := h.child i np _ hchild
  have hne : ∀ k, own k = vacant → k ≠ i := by
    rintro k hk rfl
    rw [hk] at halive
    cases halive
  refine ⟨fun f => ?_, fun j np' e hj => ?_⟩
  · have hbirth := sum_update (fun own => (references H own).count f) own np (calm H ofile c)
    have hgive := sum_update (fun own => (references H own).count f)
      (Function.update own np (calm H ofile c)) i { own i with child := none }
    rw [hvacant] at hbirth
    rw [Function.update_of_ne (hne np hvacant).symm] at hgive
    have hgiven : (references H (own i)).count f
        = (references H ({ own i with child := none } : Own P F I)).count f
          + (references H (calm H ofile c : Own P F I)).count f := by
      simp [references, hchild, calm]
    have hnothing : (references H (vacant : Own P F I)).count f = 0 := by
      simp [references, vacant]
    rw [href, h.ref]
    omega
  · have hold : ∀ k np' e, (Function.update (Function.update own np (calm H ofile c)) i
        { own i with child := none } k).child = some (np', e) →
          k ≠ i ∧ (own k).child = some (np', e) := by
      intro k np' e hk
      by_cases hki : k = i
      · subst hki
        rw [Function.update_self] at hk
        cases hk
      · rw [Function.update_of_ne hki] at hk
        by_cases hknp : k = np
        · subst hknp
          rw [Function.update_self] at hk
          cases hk
        · rw [Function.update_of_ne hknp] at hk
          exact ⟨hki, hk⟩
    obtain ⟨hji, hjold⟩ := hold j np' e hj
    obtain ⟨hvacant', hparent'⟩ := h.child j np' e hjold
    have hne' : np' ≠ np := by
      rintro rfl
      exact hji (hparent j e hjold)
    refine ⟨?_, fun k e' hk => hparent' k e' (hold k np' e' hk).2⟩
    rw [Function.update_of_ne (hne np' hvacant'), Function.update_of_ne hne']
    exact hvacant'

/-- Any other call changes the caller only. -/
theorem Counted.call [Fintype P] {own : P → Own P F I} (h : Counted H T s own)
    (halive : (own i).alive = true) (hallows : (own i).allows H op)
    (hop : ∀ np, op ≠ .runnable np) (htakes : Takes own op answer)
    (hacts : T.acts s op answer s') :
    Counted H T s' (Function.update own i ((own i).after op answer)) := by
  refine ⟨fun f => ?_, fun j np e hj => ?_⟩
  · have hsum := sum_update (fun own => (references H own).count f) own i
      ((own i).after op answer)
    have hone := ref_after hallows hacts (h.held i) hop f
    rw [h.ref f] at hone
    omega
  · have hold : ∀ k np e, (Function.update own i ((own i).after op answer) k).child = some (np, e) →
        (∃ e', (own k).child = some (np, e')) ∨ k = i ∧ Free own np := by
      intro k np e hk
      by_cases hki : k = i
      · subst hki
        rw [Function.update_self] at hk
        exact (child_after hallows htakes hk).imp_right fun hfree => ⟨rfl, hfree⟩
      · rw [Function.update_of_ne hki] at hk
        exact Or.inl ⟨e, hk⟩
    rcases hold j np e hj with ⟨e₁, he₁⟩ | ⟨rfl, hfree⟩
    · obtain ⟨hvacant, hparent⟩ := h.child j np e₁ he₁
      refine ⟨?_, fun k e' hk => ?_⟩
      · rw [Function.update_of_ne]
        · exact hvacant
        · rintro rfl
          rw [hvacant] at halive
          cases halive
      · rcases hold k np e' hk with ⟨e₂, he₂⟩ | ⟨-, hfree⟩
        · exact hparent k e₂ he₂
        · exact absurd he₁ (hfree.2 j e₁)
    · refine ⟨?_, fun k e' hk => ?_⟩
      · rw [Function.update_of_ne]
        · exact hfree.1
        · rintro rfl
          rw [hfree.1] at halive
          cases halive
      · rcases hold k np e' hk with ⟨e₂, he₂⟩ | ⟨hki, -⟩
        · exact absurd he₂ (hfree.2 k e₂)
        · exact hki

omit [DecidableEq F] [DecidableEq I] in
theorem born_eq {own : P → Own P F I} (hop : ∀ np, op ≠ .runnable np) : born H own i op = own := by
  cases op with
  | runnable np => exact absurd rfl (hop np)
  | _ => rfl

/-- The answer to a permitted call keeps the counts, and changes another process only where it
makes it. -/
theorem Counted.step [Fintype P] {own own' : P → Own P F I} (h : Counted H T s own)
    (halive : (own i).alive = true) (hallows : (own i).allows H op)
    (hanswers : Answers H T s own i op answer s' own') :
    Counted H T s' own' ∧
      ∀ j, j ≠ i → own' j = own j ∨ Rests H (own' j) ∧ (own j).alive = false := by
  rw [hanswers.own]
  by_cases hop : ∃ np, op = .runnable np
  · obtain ⟨np, rfl⟩ := hop
    obtain ⟨⟨ofile, cwd⟩, hchild, hcwd⟩ := hallows
    obtain ⟨c, rfl⟩ := Option.ne_none_iff_exists'.mp hcwd
    have hborn : born H own i (.runnable np) = Function.update own np (calm H ofile c) := by
      simp [born, hchild]
    rw [hborn]
    refine ⟨h.birth halive hchild (T.quiet s _ answer s' hanswers.acts trivial), fun j hj => ?_⟩
    rw [Function.update_of_ne hj]
    by_cases hjnp : j = np
    · subst hjnp
      rw [Function.update_self, (h.child i j _ hchild).1]
      exact Or.inr ⟨rests_of_eq rfl, rfl⟩
    · exact Or.inl (Function.update_of_ne hjnp _ _)
  · have hother : ∀ np, op ≠ .runnable np := fun np hnp => hop ⟨np, hnp⟩
    rw [born_eq hother]
    exact ⟨h.call halive hallows hother hanswers.takes hanswers.acts,
      fun j hj => Or.inl (Function.update_of_ne hj _ _)⟩

end Counting

/-! ## Every interleaving -/

section Runs

variable {H} {T} [Fintype P] {first : P} {root : I}
  {w₀ w : FileWorld S P F I}

theorem Boot.orderly (h : Boot H T first root w₀) :
    w₀.Orderly (contract H) (Counted H T) (Rests H) := by
  have hown : ∀ i, Rests H (w₀.own i) ∧ references H (w₀.own i) = 0 ∧ (w₀.own i).child = none := by
    intro i
    by_cases hi : i = first
    · rw [hi, h.own]
      exact ⟨rests_of_eq rfl, by simp [references, calm, files_none], rfl⟩
    · rw [h.others i hi]
      exact ⟨Or.inl rfl, by simp [references, vacant], rfl⟩
  refine ⟨⟨fun f => ?_, fun i np e hchild => ?_⟩, fun i _ => (hown i).1, fun i p hp => ?_⟩
  · rw [h.ref, Finset.sum_eq_zero]
    intro i _
    rw [(hown i).2.1, Multiset.count_zero]
  · rw [(hown i).2.2] at hchild
    cases hchild
  · rw [h.running] at hp
    cases hp

theorem run_orderly (hboot : Boot H T first root w₀) (hrun : Reachable (HandlerStep H T) w₀ w) :
    w.Orderly (contract H) (Counted H T) (Rests H) := by
  refine reachable_orderly hboot.orderly (fun own p => Enters.meets) ?_ hrun
  intro s own i op answer s' own' hcounted hpermits hanswers
  obtain ⟨hcounted', hothers⟩ := hcounted.step hpermits.1 hpermits.2 hanswers
  refine ⟨hanswers.legal, ?_, hcounted', fun j hj => (hothers j hj).imp_right ?_⟩
  · rw [hanswers.own, Function.update_self]
    rfl
  · rintro ⟨hrests, hdead⟩
    refine ⟨hrests, fun op hop => ?_⟩
    rw [hop.1] at hdead
    cases hdead

omit [DecidableEq I] [DecidableEq P] [Fintype P] in
theorem count_files (n : ℕ) (ofile : ℕ → Option F) (f : F) :
    (files n ofile).count f = ((List.range n).countP fun fd => ofile fd = some f) := by
  rw [files, ← Multiset.coe_range, Multiset.filterMap_coe, Multiset.coe_count,
    List.count_filterMap]
  exact List.countP_congr fun fd _ => by simp

omit [DecidableEq P] in
/-- Where no process is inside of a handler, the references are those of the descriptors. -/
theorem ref_of_idle (h : w.Orderly (contract H) (Counted H T) (Rests H))
    (hidle : ∀ i, w.running i = none) (f : F) : T.ref w.shared f
      = ∑ i, (List.range H.nofile).countP fun fd => (w.own i).ofile fd = some f := by
  rw [h.inv.ref]
  refine Finset.sum_congr rfl fun i _ => ?_
  rw [← count_files]
  rcases h.outside i (hidle i) with hvacant | ⟨ofile, c, hcalm⟩
  · rw [hvacant]
    simp [references, vacant, files_none]
  · rw [hcalm]
    simp [references, calm]

/-- In every interleaving, a file that a handler passes to `filedup` or `fileclose` has a
reference, so that neither of them panics; and where no process is inside of a handler, a file
has as many references as there are descriptors that name it. -/
theorem files_counted (hboot : Boot H T first root w₀) (hrun : Reachable (HandlerStep H T) w₀ w) :
    (∀ i f next, w.running i = some (.call (.filedup f) next) → 1 ≤ T.ref w.shared f) ∧
    (∀ i f next, w.running i = some (.call (.fileclose f) next) → 1 ≤ T.ref w.shared f) ∧
    ((∀ i, w.running i = none) → ∀ f, T.ref w.shared f
      = ∑ i, (List.range H.nofile).countP fun fd => (w.own i).ofile fd = some f) := by
  have h := run_orderly hboot hrun
  refine ⟨fun i f next hi => ?_, fun i f next hi => ?_, ref_of_idle h⟩
  · exact h.inv.held i f (h.inside i _ hi).1.2
  · exact h.inv.held i f (h.inside i _ hi).1.2.1

theorem files_counted_pipe : ∃ w : FileWorld (Fin 3 → ℕ) (Fin 2) (Fin 3) Unit,
    (∀ i, w.running i = none) ∧ (w.own 0).ofile 0 = some 0 ∧ ∀ f, w.shared f
      = ∑ i, (List.range 2).countP fun fd => (w.own i).ofile fd = some f := by
  obtain ⟨w, hrun, hidle, hfile, -⟩ := exists_pipe_run
  exact ⟨w, hidle, hfile, (files_counted twoProcesses_boot hrun).2.2 hidle⟩

/-- In every interleaving, a handler is about to make a call that it may make with what it has,
and a process outside of handlers has the files of its descriptors and its directory only. -/
theorem handlers_disciplined (hboot : Boot H T first root w₀)
    (hrun : Reachable (HandlerStep H T) w₀ w) :
    (∀ i op next, w.running i = some (.call op next) → (w.own i).allows H op) ∧
      ∀ i, w.running i = none → Rests H (w.own i) := by
  have h := run_orderly hboot hrun
  exact ⟨fun i op next hi => (h.inside i _ hi).1.2, h.outside⟩

theorem handlers_disciplined_pipe : ∃ w : FileWorld (Fin 3 → ℕ) (Fin 2) (Fin 3) Unit,
    (w.own 0).ofile 0 = some 0 ∧ ∀ i, Rests twoFiles (w.own i) := by
  obtain ⟨w, hrun, hidle, hfile, -⟩ := exists_pipe_run
  exact ⟨w, hfile, fun i => (handlers_disciplined twoProcesses_boot hrun).2 i (hidle i)⟩

end Runs

/-! ## The free descriptors of `sysinfo` -/

/-- `infofreefd()`. -/
def infofreefd {nproc : ℕ} (ofile : Fin nproc → ℕ → Option F) : ℕ :=
  (List.finRange nproc).foldl (fun freefd p =>
    (List.range H.nofile).foldl (fun freefd fd =>
      if ofile p fd = none then freefd + 1 else freefd) freefd) 0

omit [DecidableEq F] in
/-- The loop over the descriptors of a process counts those that are free. -/
theorem foldl_free (ofile : ℕ → Option F) (fds : List ℕ) (freefd : ℕ) :
    fds.foldl (fun freefd fd => if ofile fd = none then freefd + 1 else freefd) freefd
      = freefd + fds.countP fun fd => ofile fd = none := by
  induction fds generalizing freefd with
  | nil => rfl
  | cons fd fds ih =>
      rw [List.foldl_cons, ih, List.countP_cons]
      by_cases hfd : ofile fd = none
      · simp only [hfd, if_true, decide_true]
        omega
      · simp only [hfd, if_false, decide_false, Bool.false_eq_true]
        omega

omit [DecidableEq F] in
theorem infofreefd_eq {nproc : ℕ} (ofile : Fin nproc → ℕ → Option F) :
    infofreefd H ofile = ∑ p, (List.range H.nofile).countP fun fd => ofile p fd = none := by
  have hloop : ∀ (procs : List (Fin nproc)) (freefd : ℕ), procs.foldl (fun freefd p =>
      (List.range H.nofile).foldl (fun freefd fd =>
        if ofile p fd = none then freefd + 1 else freefd) freefd) freefd
        = freefd + (procs.map fun p =>
          (List.range H.nofile).countP fun fd => ofile p fd = none).sum := by
    intro procs
    induction procs with
    | nil => exact fun freefd => rfl
    | cons p procs ih =>
        intro freefd
        rw [List.foldl_cons, ih, foldl_free, List.map_cons, List.sum_cons, Nat.add_assoc]
  rw [infofreefd, hloop, Nat.zero_add, Fin.sum_univ_def]

/-- A descriptor names a file, or it is free. -/
theorem free_add_named [Fintype F] (n : ℕ) (ofile : ℕ → Option F) :
    ((List.range n).countP fun fd => ofile fd = none)
      + ∑ f, ((List.range n).countP fun fd => ofile fd = some f) = n := by
  have hnamed : ∑ f, ((List.range n).countP fun fd => ofile fd = some f)
      = (List.range n).countP fun fd => (ofile fd).isSome := by
    rw [← List.length_filterMap_eq_countP]
    calc ∑ f, ((List.range n).countP fun fd => ofile fd = some f)
        = ∑ f, (files n ofile).count f :=
          Finset.sum_congr rfl fun f _ => (count_files n ofile f).symm
      _ = (files n ofile).card := Multiset.sum_count_eq_card fun f _ => Finset.mem_univ f
      _ = ((List.range n).filterMap ofile).length := rfl
  have hsplit := List.length_eq_countP_add_countP (fun fd => ofile fd = none) (l := List.range n)
  have hisSome : (List.range n).countP (fun fd => (ofile fd).isSome)
      = (List.range n).countP fun fd => ¬ decide (ofile fd = none) = true :=
    List.countP_congr fun fd _ => by cases ofile fd <;> simp
  rw [List.length_range] at hsplit
  rw [hnamed, hisSome, ← hsplit]

/-- Where no process is inside of a handler, the free descriptors that `sysinfo` reports and the
references to files are together as many as all the descriptors. -/
theorem infofreefd_counts [Fintype F] {nproc : ℕ} {T : FileTable (Fin nproc) F I S}
    {first : Fin nproc} {root : I} {w₀ w : FileWorld S (Fin nproc) F I}
    (hboot : Boot H T first root w₀)
    (hrun : Reachable (HandlerStep H T) w₀ w) (hidle : ∀ i, w.running i = none) :
    infofreefd H (fun p => (w.own p).ofile) + ∑ f, T.ref w.shared f = nproc * H.nofile := by
  have href := ref_of_idle (run_orderly hboot hrun) hidle
  calc infofreefd H (fun p => (w.own p).ofile) + ∑ f, T.ref w.shared f
      = ∑ p, ((List.range H.nofile).countP fun fd => (w.own p).ofile fd = none)
        + ∑ p, ∑ f, (List.range H.nofile).countP fun fd => (w.own p).ofile fd = some f := by
        rw [infofreefd_eq, Finset.sum_comm]
        exact congrArg _ (Finset.sum_congr rfl fun f _ => href f)
    _ = ∑ _p : Fin nproc, H.nofile := by
        rw [← Finset.sum_add_distrib]
        exact Finset.sum_congr rfl fun p _ => free_add_named H.nofile (w.own p).ofile
    _ = nproc * H.nofile := by
        rw [Finset.sum_const, Finset.card_univ, Fintype.card_fin, smul_eq_mul]

theorem infofreefd_counts_pipe : ∃ w : FileWorld (Fin 3 → ℕ) (Fin 2) (Fin 3) Unit,
    (w.own 0).ofile 0 = some 0 ∧
      infofreefd twoFiles (fun p => (w.own p).ofile) + ∑ f, w.shared f = 2 * 2 := by
  obtain ⟨w, hrun, hidle, hfile, -⟩ := exists_pipe_run
  exact ⟨w, hfile, infofreefd_counts twoFiles twoProcesses_boot hrun hidle⟩

end OperateSystem.Syscall

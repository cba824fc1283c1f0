import OperateSystem.Syscall.Kernel

/-!
# Which system calls are traced

The mask in force for a process is a fact about the past: the argument of its own last
`trace`, or else what was in force for its parent when it was forked, or else 0.  The
slot of a live process holds it in every reachable state, whoever lived in the slot
before.  The test at the end of `syscall` reads its bit, but on the shifted `int`, and a
negative odd number leaves the remainder `-1`.
-/

namespace OperateSystem.Syscall

open OperateSystem.Invariant

variable {nproc : ℕ}

/-- The mask in force for process `q`. -/
def inForce : (log : List Event) → (q : ℕ) → BitVec 32
  | [], _ => 0
  | .userinit child :: log, q => if q = child then 0 else inForce log q
  | .fork parent child :: log, q => if q = child then inForce log parent else inForce log q
  | .trace proc mask :: log, q => if q = proc then mask else inForce log q
  | .returned _ _ _ :: log, q => inForce log q

/-- Every system call that has returned has printed a line when the test said so of the
mask in force. -/
def Lines : List Event → Prop
  | [] => True
  | .returned proc num line :: log =>
      (validNum num ∧ line.isSome = traced (inForce log proc) num) ∧ Lines log
  | .userinit _ :: log | .fork _ _ :: log | .trace _ _ :: log => Lines log

theorem Lines.returned {later earlier : List Event} {proc num : ℕ} {line : Option Line}
    (h : Lines (later ++ .returned proc num line :: earlier)) :
    validNum num ∧ line.isSome = traced (inForce earlier proc) num := by
  induction later with
  | nil => exact h.1
  | cons event later ih =>
      cases event with
      | userinit child => exact ih h
      | fork parent child => exact ih h
      | trace proc mask => exact ih h
      | returned proc num line => exact ih h.2

/-! ## The test -/

/-- The test sees the bit of a mask that is not negative. -/
theorem traced_iff (mask : BitVec 32) (num : ℕ) :
    traced mask num ↔ mask.getLsbD num ∧ mask.msb = false := by
  rw [traced, decide_eq_true_eq, BitVec.toInt_sshiftRight, Int.shiftRight_eq_div_pow]
  cases hmsb : mask.msb with
  | true =>
      have hneg : mask.toInt < 0 := by simpa [BitVec.msb_eq_toInt] using hmsb
      have hshift : mask.toInt / ((2 ^ num : ℕ) : Int) < 0 :=
        Int.ediv_neg_of_neg_of_pos hneg (Int.natCast_pos.mpr (Nat.two_pow_pos num))
      generalize mask.toInt / ((2 ^ num : ℕ) : Int) = shifted at hshift ⊢
      simp only [reduceCtorEq, and_false, iff_false]
      rw [Int.tmod_eq_emod]
      split <;> omega
  | false =>
      have hnat : mask.toInt = mask.toNat := BitVec.toInt_eq_toNat_of_msb hmsb
      have hquot : mask.toInt / ((2 ^ num : ℕ) : Int) = ((mask.toNat / 2 ^ num : ℕ) : Int) := by
        rw [hnat, Int.natCast_ediv]
      rw [hquot, BitVec.getLsbD, Nat.testBit_eq_decide_div_mod_eq, decide_eq_true_eq,
        Int.tmod_eq_emod_of_nonneg (Int.natCast_nonneg _)]
      generalize mask.toNat / 2 ^ num = quotient
      simp only [and_true]
      omega

/-! ## The slots -/

/-- The slot of a live process holds the mask in force for it. -/
structure Masks (s : Kernel nproc) : Prop where
  mask : ∀ p, (s.procs p).state ≠ .unused → (s.procs p).mask = inForce s.log (s.owner p)
  cleared : ∀ p, (s.procs p).state = .unused → (s.procs p).mask = 0
  owner_lt : ∀ p, (s.procs p).state ≠ .unused → s.owner p < s.born
  owner_inj : ∀ p q, (s.procs p).state ≠ .unused → (s.procs q).state ≠ .unused →
    s.owner p = s.owner q → p = q

/-- A process is inside `syscall` only between its creation and its exit. -/
def CallsOk (s : Kernel nproc) : Prop :=
  ∀ p call, s.calls p = some call → validNum call.num ∧ (s.procs p).state.Active

structure Inv (s : Kernel nproc) : Prop where
  masks : Masks s
  calls : CallsOk s
  lines : Lines s.log

theorem ProcState.Active.ne_unused {state : ProcState} (h : state.Active) : state ≠ .unused := by
  rintro rfl
  simp [ProcState.Active] at h

section Slots

variable {s s' : Kernel nproc}

/-- What the masks depend on. -/
theorem Masks.congr (h : Masks s) (hmask : ∀ p, (s'.procs p).mask = (s.procs p).mask)
    (hunused : ∀ p, (s'.procs p).state = .unused ↔ (s.procs p).state = .unused)
    (howner : s'.owner = s.owner) (hborn : s'.born = s.born)
    (hforce : inForce s'.log = inForce s.log) : Masks s' := by
  constructor
  · intro p hp
    rw [hmask, hforce, howner]
    exact h.mask p (mt (hunused p).mpr hp)
  · intro p hp
    rw [hmask]
    exact h.cleared p ((hunused p).mp hp)
  · intro p hp
    rw [howner, hborn]
    exact h.owner_lt p (mt (hunused p).mpr hp)
  · intro p q hp hq heq
    rw [howner] at heq
    exact h.owner_inj p q (mt (hunused p).mpr hp) (mt (hunused q).mpr hq) heq

theorem Masks.setCall (h : Masks s) (p : Fin nproc) (call : Option Call) :
    Masks (s.setCall p call) :=
  ⟨h.mask, h.cleared, h.owner_lt, h.owner_inj⟩

/-- Changing the other fields of a slot. -/
theorem Masks.setProc (h : Masks s) {p : Fin nproc} {proc : Proc nproc}
    (hmask : proc.mask = (s.procs p).mask)
    (hunused : proc.state = .unused ↔ (s.procs p).state = .unused) : Masks (s.setProc p proc) := by
  refine h.congr (fun q => ?_) (fun q => ?_) rfl rfl rfl
  · by_cases heq : q = p
    · subst heq
      simpa [Kernel.setProc] using hmask
    · simp [Kernel.setProc, heq]
  · by_cases heq : q = p
    · subst heq
      simpa [Kernel.setProc] using hunused
    · simp [Kernel.setProc, heq]

/-- A slot that is given back is cleared. -/
theorem Masks.freeproc (h : Masks s) (np : Fin nproc) : Masks (s.freeproc np) := by
  have hother : ∀ p, ((s.freeproc np).procs p).state ≠ .unused →
      (s.freeproc np).procs p = s.procs p := by
    intro p hp
    by_cases heq : p = np
    · subst heq
      simp [Kernel.freeproc, Kernel.setProc] at hp
    · exact Function.update_of_ne heq ..
  constructor
  · intro p hp
    have hsame := hother p hp
    rw [hsame] at hp ⊢
    exact h.mask p hp
  · intro p hp
    by_cases heq : p = np
    · subst heq
      simp [Kernel.freeproc, Kernel.setProc]
    · have hsame : (s.freeproc np).procs p = s.procs p := Function.update_of_ne heq ..
      rw [hsame] at hp ⊢
      exact h.cleared p hp
  · intro p hp
    have hsame := hother p hp
    rw [hsame] at hp
    exact h.owner_lt p hp
  · intro p q hp hq heq
    rw [hother p hp] at hp
    rw [hother q hq] at hq
    exact h.owner_inj p q hp hq heq

/-- A new process gets a name of its own, and the event of its creation says which mask
is in force for it. -/
theorem Masks.create (h : Masks s) {np : Fin nproc} {parent : Option (Fin nproc)}
    {mask : BitVec 32} {event : Event}
    (hnew : inForce (event :: s.log) s.born = mask)
    (hold : ∀ q, q < s.born → inForce (event :: s.log) q = inForce s.log q) :
    Masks (s.create np parent mask event) := by
  have hlive : ∀ p, p ≠ np → ((s.create np parent mask event).procs p).state ≠ .unused →
      (s.procs p).state ≠ .unused := by
    intro p hne hp
    simpa only [Kernel.create, Function.update_of_ne hne] using hp
  constructor
  · intro p hp
    by_cases heq : p = np
    · subst heq
      simp [Kernel.create, hnew]
    · have hp' := hlive p heq hp
      simp only [Kernel.create, Function.update_of_ne heq]
      rw [h.mask p hp', hold _ (h.owner_lt p hp')]
  · intro p hp
    by_cases heq : p = np
    · subst heq
      simp [Kernel.create] at hp
    · simp only [Kernel.create, Function.update_of_ne heq] at hp ⊢
      exact h.cleared p hp
  · intro p hp
    by_cases heq : p = np
    · subst heq
      simp [Kernel.create]
    · simp only [Kernel.create, Function.update_of_ne heq]
      exact Nat.lt_succ_of_lt (h.owner_lt p (hlive p heq hp))
  · intro p q hp hq hsame
    by_cases heq : p = np
    · by_cases heq' : q = np
      · rw [heq, heq']
      · subst heq
        simp only [Kernel.create, Function.update_self, Function.update_of_ne heq'] at hsame
        exact absurd (h.owner_lt q (hlive q heq' hq)) (by omega)
    · by_cases heq' : q = np
      · subst heq'
        simp only [Kernel.create, Function.update_self, Function.update_of_ne heq] at hsame
        exact absurd (h.owner_lt p (hlive p heq hp)) (by omega)
      · simp only [Kernel.create, Function.update_of_ne heq, Function.update_of_ne heq'] at hsame
        exact h.owner_inj p q (hlive p heq hp) (hlive q heq' hq) hsame

/-- What is known of a call depends on the state of its process. -/
theorem CallsOk.congr (h : CallsOk s) (hcalls : s'.calls = s.calls)
    (hactive : ∀ p, (s.procs p).state.Active → (s'.procs p).state.Active) : CallsOk s' := by
  intro p call hcall
  rw [hcalls] at hcall
  obtain ⟨hnum, hp⟩ := h p call hcall
  exact ⟨hnum, hactive p hp⟩

theorem CallsOk.setCall (h : CallsOk s) {p : Fin nproc} {call : Option Call}
    (hcall : ∀ new, call = some new → validNum new.num ∧ (s.procs p).state.Active) :
    CallsOk (s.setCall p call) := by
  intro q new hnew
  by_cases heq : q = p
  · subst heq
    simp only [Kernel.setCall, Function.update_self] at hnew
    exact hcall new hnew
  · simp only [Kernel.setCall, Function.update_of_ne heq] at hnew
    exact h q new hnew

/-- The handler comes to its end. -/
theorem CallsOk.done (h : CallsOk s) {p : Fin nproc} {num : ℕ} {arg0 : BitVec 32}
    (hhandles : Handles s p num arg0) (hcalls : s'.calls = s.calls)
    (hactive : ∀ p, (s.procs p).state.Active → (s'.procs p).state.Active) :
    CallsOk (s'.setCall p (some ⟨num, arg0, true⟩)) := by
  obtain ⟨hnum, hp⟩ := h p _ hhandles.call
  refine (h.congr hcalls hactive).setCall ?_
  rintro new hnew
  cases hnew
  exact ⟨hnum, hactive p hp⟩

/-- Changing a slot that no live process has leaves the others active. -/
theorem active_update {np : Fin nproc} {proc : Proc nproc}
    (hnp : ¬ (s.procs np).state.Active) (p : Fin nproc) (hp : (s.procs p).state.Active) :
    (Function.update s.procs np proc p).state.Active := by
  have hne : p ≠ np := by
    rintro rfl
    exact hnp hp
  rwa [Function.update_of_ne hne]

end Slots

theorem not_active_unused : ¬ ProcState.Active .unused := by simp [ProcState.Active]

theorem not_active_zombie : ¬ ProcState.Active .zombie := by simp [ProcState.Active]

/-! ## Every run -/

section Runs

variable {s s' : Kernel nproc}

theorem inv_boot : Inv (Kernel.boot : Kernel nproc) := by
  refine ⟨⟨?_, ?_, ?_, ?_⟩, ?_, trivial⟩ <;> simp [Kernel.boot, CallsOk]

theorem Masks.reparent (h : Masks s) (p : Fin nproc) : Masks (s.reparent p) := by
  refine h.congr (fun q => ?_) (fun q => ?_) rfl rfl rfl
  · simp only [Kernel.reparent]
    split <;> rfl
  · simp only [Kernel.reparent]
    split <;> rfl

/-- Only the process itself changes the mask in force for it. -/
theorem Masks.trace (h : Masks s) {p : Fin nproc} (hp : (s.procs p).state ≠ .unused)
    (mask : BitVec 32) :
    Masks { s.setProc p { s.procs p with mask := mask } with
      log := .trace (s.owner p) mask :: s.log } := by
  have hstate : ∀ q, ((s.setProc p { s.procs p with mask := mask }).procs q).state
      = (s.procs q).state := by
    intro q
    by_cases heq : q = p
    · subst heq
      simp [Kernel.setProc]
    · simp [Kernel.setProc, heq]
  constructor
  · intro q hq
    rw [hstate] at hq
    by_cases heq : q = p
    · subst heq
      simp [Kernel.setProc, inForce]
    · have hother : s.owner q ≠ s.owner p := fun hsame => heq (h.owner_inj q p hq hp hsame)
      have hforce : inForce (.trace (s.owner p) mask :: s.log) (s.owner q)
          = inForce s.log (s.owner q) := if_neg hother
      have hsame : ((s.setProc p { s.procs p with mask := mask }).procs q).mask
          = (s.procs q).mask := by simp [Kernel.setProc, heq]
      exact hsame.trans ((h.mask q hq).trans hforce.symm)
  · intro q hq
    rw [hstate] at hq
    have hne : q ≠ p := by
      rintro rfl
      exact hp hq
    simp only [Kernel.setProc, Function.update_of_ne hne]
    exact h.cleared q hq
  · intro q hq
    rw [hstate] at hq
    exact h.owner_lt q hq
  · intro q r hq hr hsame
    rw [hstate] at hq hr
    exact h.owner_inj q r hq hr hsame

theorem Masks.step (h : Masks s) (hstep : Step s s') : Masks s' := by
  cases hstep with
  | switch p state hold hnew =>
      exact h.setProc rfl (iff_of_false hnew.ne_unused hold.ne_unused)
  | userinit np hinit hunused =>
      have hnew : inForce (.userinit s.born :: s.log) s.born = (s.procs np).mask := by
        simp [inForce, h.cleared np hunused]
      have hcreated := @Masks.create _ s h np (s.procs np).parent _ _ hnew
        fun q hq => by simp [inForce, Nat.ne_of_lt hq]
      exact ⟨hcreated.mask, hcreated.cleared, hcreated.owner_lt, hcreated.owner_inj⟩
  | enter p num arg0 hnum hrunning huser => exact h.setCall ..
  | @fork p arg0 np hcall hunused =>
      have hparent : (s.procs p).state ≠ .unused := by simp [hcall.running]
      have hnew : inForce (.fork (s.owner p) s.born :: s.log) s.born = (s.procs p).mask := by
        simp [inForce, h.mask p hparent]
      exact (h.create hnew fun q hq => by simp [inForce, Nat.ne_of_lt hq]).setCall ..
  | forkFull hcall => exact h.setCall ..
  | forkNoTrapframe np hcall hunused =>
      have hslot : Masks (s.setProc np { s.procs np with pid := s.nextpid }) :=
        h.setProc rfl Iff.rfl
      exact ⟨hslot.mask, hslot.cleared, hslot.owner_lt, hslot.owner_inj⟩
  | forkUndone np hcall hunused =>
      have hslot := h.freeproc np
      exact ⟨hslot.mask, hslot.cleared, hslot.owner_lt, hslot.owner_inj⟩
  | trace hcall => exact (h.trace (by simp [hcall.running]) _).setCall ..
  | @exit p hrunning hinit hcall =>
      have hstate : ((s.reparent p).procs p).state = (s.procs p).state := by
        simp only [Kernel.reparent]
        split <;> rfl
      have hslot : Masks ((s.reparent p).setState p .zombie) :=
        (h.reparent p).setProc rfl (by simp [hstate, hrunning])
      exact hslot.setCall ..
  | wait np hcall hchild hzombie => exact (h.freeproc np).setCall ..
  | waitFail hcall => exact h.setCall ..
  | handler hcall hother => exact h.setCall ..
  | syscall a0 hrunning hcall => exact h.congr (fun _ => rfl) (fun _ => Iff.rfl) rfl rfl rfl

theorem CallsOk.step (h : CallsOk s) (hstep : Step s s') : CallsOk s' := by
  cases hstep with
  | @switch p state hold hnew =>
      refine h.congr rfl fun q hq => ?_
      by_cases heq : q = p
      · subst heq
        simpa [Kernel.setState, Kernel.setProc] using hnew
      · simpa [Kernel.setState, Kernel.setProc, heq] using hq
  | userinit np hinit hunused =>
      exact h.congr rfl (active_update (by rw [hunused]; exact not_active_unused))
  | enter p num arg0 hnum hrunning huser =>
      refine h.setCall fun new hnew => ?_
      cases hnew
      exact ⟨hnum, by simp [hrunning, ProcState.Active]⟩
  | fork np hcall hunused =>
      refine h.done hcall ?_ ?_
      · rfl
      · exact active_update (by rw [hunused]; exact not_active_unused)
  | forkFull hcall => exact h.done hcall rfl fun _ hp => hp
  | forkNoTrapframe np hcall hunused =>
      refine h.done hcall ?_ ?_
      · rfl
      · exact active_update (by rw [hunused]; exact not_active_unused)
  | forkUndone np hcall hunused =>
      refine h.done hcall ?_ ?_
      · rfl
      · exact active_update (by rw [hunused]; exact not_active_unused)
  | @trace p mask hcall =>
      refine h.done hcall ?_ ?_
      · rfl
      · intro q hq
        by_cases heq : q = p
        · subst heq
          simpa [Kernel.setProc] using hq
        · simpa [Kernel.setProc, heq] using hq
  | @exit p hrunning hinit hcall =>
      -- The process that exits leaves its call; the others keep their states.
      intro q call hq
      by_cases heq : q = p
      · subst heq
        simp [Kernel.setCall] at hq
      · simp only [Kernel.setCall, Function.update_of_ne heq] at hq
        obtain ⟨hnum, hactive⟩ := h q call hq
        refine ⟨hnum, ?_⟩
        simp only [Kernel.setCall, Kernel.setState, Kernel.setProc, Function.update_of_ne heq,
          Kernel.reparent]
        split <;> exact hactive
  | wait np hcall hchild hzombie =>
      refine h.done hcall ?_ ?_
      · rfl
      · exact active_update (by rw [hzombie]; exact not_active_zombie)
  | waitFail hcall => exact h.done hcall rfl fun _ hp => hp
  | handler hcall hother => exact h.done hcall rfl fun _ hp => hp
  | syscall a0 hrunning hcall => exact CallsOk.setCall h fun new hnew => by simp at hnew

theorem Lines.step (h : Inv s) (hstep : Step s s') : Lines s'.log := by
  obtain ⟨hmasks, hcalls, hlines⟩ := h
  cases hstep with
  | @syscall p num arg0 a0 hrunning hcall =>
      refine ⟨⟨(hcalls p _ hcall).1, ?_⟩, hlines⟩
      rw [← hmasks.mask p (by simp [hrunning]), traceLine]
      cases traced (s.procs p).mask num <;> rfl
  | _ => exact hlines

theorem reachable_inv (hreach : Reachable Step Kernel.boot s) : Inv s := by
  refine reachable_invariant Inv inv_boot ?_ hreach
  intro before after hinv hstep
  exact ⟨hinv.masks.step hstep, hinv.calls.step hstep, Lines.step hinv hstep⟩

/-- **Which calls are traced.**  In every run the slot of each live process holds the
mask in force for it.  A call that has returned has its line exactly when its bit of the
mask in force at that time is set, unless that mask is negative and its bit is set: then
there is no line. -/
theorem trace_lines_follow_mask_iff {s : Kernel nproc} (hreach : Reachable Step Kernel.boot s) :
    (∀ p, (s.procs p).state ≠ .unused → (s.procs p).mask = inForce s.log (s.owner p)) ∧
      ∀ (later earlier : List Event) (proc num : ℕ) (line : Option Line),
        s.log = later ++ .returned proc num line :: earlier →
        ((line.isSome ↔ (inForce earlier proc).getLsbD num) ↔
          ¬ ((inForce earlier proc).msb ∧ (inForce earlier proc).getLsbD num)) := by
  have hinv := reachable_inv hreach
  refine ⟨hinv.masks.mask, ?_⟩
  intro later earlier proc num line hlog
  have hlines := hinv.lines
  rw [hlog] at hlines
  rw [hlines.returned.2, traced_iff]
  cases (inForce earlier proc).msb <;> simp

end Runs

/-! ## A negative mask -/

section Example

/-- The first process calls `trace(mask)`. -/
theorem exists_trace (mask : BitVec 32) : ∃ s : Kernel 1, Reachable Step Kernel.boot s ∧
    s.log = [.returned 0 sysTrace (traceLine (⟨.running, none, 1, mask⟩ : Proc 1) sysTrace mask 0),
      .trace 0 mask, .userinit 0] := by
  have hreach : Reachable Step (Kernel.boot : Kernel 1) Kernel.boot := .refl
  replace hreach := hreach.tail (.userinit 0 rfl rfl)
  replace hreach := hreach.tail (.switch 0 .running (Or.inr (Or.inl rfl)) (Or.inr (Or.inr rfl)))
  replace hreach := hreach.tail (.enter 0 sysTrace mask ⟨by decide, by decide⟩ rfl rfl)
  replace hreach := hreach.tail (.trace (⟨rfl, rfl⟩ : Handles _ 0 sysTrace mask))
  replace hreach := hreach.tail (.syscall (p := 0) 0 rfl rfl)
  exact ⟨_, hreach, rfl⟩

/-- `trace(-1)` asks for every call, and not even its own is traced. -/
theorem not_trace_lines_follow_mask : ¬ ∀ s : Kernel 1, Reachable Step Kernel.boot s →
    ∀ (later earlier : List Event) (proc num : ℕ) (line : Option Line),
      s.log = later ++ .returned proc num line :: earlier →
      (line.isSome ↔ (inForce earlier proc).getLsbD num) := by
  intro hall
  obtain ⟨s, hreach, hlog⟩ := exists_trace (-1)
  have hcall := hall s hreach [] _ 0 sysTrace _ hlog
  revert hcall
  decide

/-- The first process asks for the line of `fork` and forks; its child asks for the line of
`trace`, exits and is reaped; and a second child gets the slot of the first and forks, without
a slot for its child. -/
theorem exists_reused : ∃ s : Kernel 2, Reachable Step Kernel.boot s ∧
    (s.procs 1).state ≠ .unused ∧ s.owner 1 = 2 ∧
    ∃ (line line' line'' line''' : Option Line),
      s.log = [.returned 2 sysFork line''', .returned 0 sysFork line'', .fork 0 2,
        .returned 0 sysWait none,
        .returned 1 sysTrace line', .trace 1 (1#32 <<< sysTrace), .returned 0 sysFork line,
        .fork 0 1, .returned 0 sysTrace none, .trace 0 (1#32 <<< sysFork), .userinit 0] := by
  have hreach : Reachable Step (Kernel.boot : Kernel 2) Kernel.boot := .refl
  replace hreach := hreach.tail (.userinit 0 rfl rfl)
  replace hreach := hreach.tail (.switch 0 .running (Or.inr (Or.inl rfl)) (Or.inr (Or.inr rfl)))
  replace hreach := hreach.tail
    (.enter 0 sysTrace (1#32 <<< sysFork) ⟨by decide, by decide⟩ rfl rfl)
  replace hreach := hreach.tail (.trace (⟨rfl, rfl⟩ : Handles _ 0 sysTrace (1#32 <<< sysFork)))
  replace hreach := hreach.tail (.syscall (p := 0) 0 rfl rfl)
  replace hreach := hreach.tail (.enter 0 sysFork 0 ⟨by decide, by decide⟩ rfl rfl)
  replace hreach := hreach.tail (.fork 1 (⟨rfl, rfl⟩ : Handles _ 0 sysFork 0) rfl)
  replace hreach := hreach.tail (.syscall (p := 0) 2 rfl rfl)
  replace hreach := hreach.tail (.switch 1 .running (Or.inr (Or.inl rfl)) (Or.inr (Or.inr rfl)))
  replace hreach := hreach.tail
    (.enter 1 sysTrace (1#32 <<< sysTrace) ⟨by decide, by decide⟩ rfl rfl)
  replace hreach := hreach.tail (.trace (⟨rfl, rfl⟩ : Handles _ 1 sysTrace (1#32 <<< sysTrace)))
  replace hreach := hreach.tail (.syscall (p := 1) 0 rfl rfl)
  replace hreach := hreach.tail (.exit (p := 1) rfl (by decide) (Or.inl rfl))
  replace hreach := hreach.tail (.enter 0 sysWait 0 ⟨by decide, by decide⟩ rfl rfl)
  replace hreach := hreach.tail (.wait 1 (⟨rfl, rfl⟩ : Handles _ 0 sysWait 0) rfl rfl)
  replace hreach := hreach.tail (.syscall (p := 0) 2 rfl rfl)
  replace hreach := hreach.tail (.enter 0 sysFork 0 ⟨by decide, by decide⟩ rfl rfl)
  replace hreach := hreach.tail (.fork 1 (⟨rfl, rfl⟩ : Handles _ 0 sysFork 0) rfl)
  replace hreach := hreach.tail (.syscall (p := 0) 3 rfl rfl)
  replace hreach := hreach.tail (.switch 1 .running (Or.inr (Or.inl rfl)) (Or.inr (Or.inr rfl)))
  replace hreach := hreach.tail (.enter 1 sysFork 0 ⟨by decide, by decide⟩ rfl rfl)
  replace hreach := hreach.tail (.forkFull (⟨rfl, rfl⟩ : Handles _ 1 sysFork 0))
  replace hreach := hreach.tail (.syscall (p := 1) (-1) rfl rfl)
  exact ⟨_, hreach, by decide, rfl, _, _, _, _, rfl⟩

/-- The mask of the first process is in force for both its children, and what the first child
has set is not in force for the second, which has its slot. -/
theorem trace_lines_follow_mask_reused : ∃ s : Kernel 2, Reachable Step Kernel.boot s ∧
    s.owner 1 = 2 ∧ (s.procs 1).mask = 1#32 <<< sysFork ∧
    ∃ line line' line'' line''' : Line,
      s.log = [.returned 2 sysFork (some line'''), .returned 0 sysFork (some line''), .fork 0 2,
        .returned 0 sysWait none, .returned 1 sysTrace (some line'),
        .trace 1 (1#32 <<< sysTrace), .returned 0 sysFork (some line), .fork 0 1,
        .returned 0 sysTrace none, .trace 0 (1#32 <<< sysFork), .userinit 0] := by
  obtain ⟨s, hreach, huse, howner, line, line', line'', line''', hlog⟩ := exists_reused
  obtain ⟨hmask, hlines⟩ := trace_lines_follow_mask_iff hreach
  have hsome : ∀ (later earlier : List Event) (proc num : ℕ) (line : Option Line),
      s.log = later ++ .returned proc num line :: earlier →
      (inForce earlier proc).getLsbD num = true → (inForce earlier proc).msb = false →
      ∃ line', line = some line' := by
    intro later earlier proc num line hlog hbit hmsb
    apply Option.isSome_iff_exists.mp
    refine ((hlines later earlier proc num line hlog).mpr ?_).mpr hbit
    rw [hmsb]
    simp
  obtain ⟨line₁, rfl⟩ := hsome [_, _, _, _, _, _] _ 0 sysFork line hlog (by simp [inForce]; decide)
    (by simp [inForce]; decide)
  obtain ⟨line₂, rfl⟩ := hsome [_, _, _, _] _ 1 sysTrace line' hlog (by simp [inForce]; decide)
    (by simp [inForce]; decide)
  obtain ⟨line₃, rfl⟩ := hsome [_] _ 0 sysFork line'' hlog (by simp [inForce]; decide)
    (by simp [inForce]; decide)
  obtain ⟨line₄, rfl⟩ := hsome [] _ 2 sysFork line''' hlog (by simp [inForce]; decide)
    (by simp [inForce]; decide)
  refine ⟨s, hreach, howner, ?_, line₁, line₂, line₃, line₄, hlog⟩
  rw [hmask 1 huse, howner, hlog]
  rfl

end Example

end OperateSystem.Syscall

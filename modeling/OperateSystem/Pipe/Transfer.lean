import OperateSystem.Core.Invariant
import OperateSystem.Core.RingBuffer

/-!
# Pipes

A pipe is a ring of `PIPESIZE` bytes with two `uint` counters that only go up.
`pipewrite` and `piperead` move one byte at a time under the lock of the pipe and give the
lock up while they sleep, so any number of calls may be in the middle of a transfer.  The
steps below are the tests and the transfers of the two loops.

The bytes that have ever been put in and taken out are recorded beside the pipe.
-/

namespace OperateSystem.Pipe

open OperateSystem.Invariant
open OperateSystem.RingBuffer

abbrev Byte := BitVec 8

/-- `PIPESIZE`. -/
def pipesize : ℕ := 512

/-- Where a process is in `pipewrite(pi, addr, n)` or `piperead(pi, addr, n)`.  The user
buffer of a writer is given by its bytes, and that of a reader by what is in it so far. -/
inductive Pc
  | idle
  | writeAcquire (buf : List Byte)
  | writeLoop (buf : List Byte) (i : ℕ)
  | writeSleep (buf : List Byte) (i : ℕ)
  | writeByte (buf : List Byte) (i : ℕ)
  | writeRelease
  | readAcquire (n : ℕ)
  | readWait (n : ℕ)
  | readSleep (n : ℕ)
  | readLoop (n : ℕ) (got : List Byte)
  | readByte (n : ℕ) (got : List Byte)
  | readRelease

/-- The process is between an acquire of the lock of the pipe and its release. -/
def Pc.inside : Pc → Bool
  | .writeLoop _ _ | .writeByte _ _ | .writeRelease => true
  | .readWait _ | .readLoop _ _ | .readByte _ _ | .readRelease => true
  | _ => false

/-- `struct pipe`, the processes that use it, and the record of its bytes. -/
structure State (Tid : Type*) where
  ring : Buffer 32 Byte
  readopen : Bool
  writeopen : Bool
  lock : Option Tid
  pc : Tid → Pc
  appended : List Byte
  taken : List Byte

variable {Tid : Type*} [DecidableEq Tid]

/-- `pipealloc` in a page that `kalloc` returns. -/
def State.pipealloc (page : ℕ → Byte) : State Tid where
  ring := ⟨page, 0, 0⟩
  readopen := true
  writeopen := true
  lock := none
  pc _ := .idle
  appended := []
  taken := []

/-- `pi->nwrite == pi->nread + PIPESIZE`. -/
def State.full (s : State Tid) : Prop :=
  s.ring.nwrite = s.ring.nread + BitVec.ofNat 32 pipesize

/-- `pi->nread == pi->nwrite`. -/
def State.empty (s : State Tid) : Prop := s.ring.nread = s.ring.nwrite

instance (s : State Tid) : Decidable s.full := inferInstanceAs (Decidable (_ = _))

instance (s : State Tid) : Decidable s.empty := inferInstanceAs (Decidable (_ = _))

def State.goto (s : State Tid) (t : Tid) (pc : Pc) : State Tid :=
  { s with pc := Function.update s.pc t pc }

/-- The same with the lock taken or given up. -/
def State.gotoLock (s : State Tid) (t : Tid) (pc : Pc) (lock : Option Tid) : State Tid :=
  { s with pc := Function.update s.pc t pc, lock := lock }

/-- `pi->data[pi->nwrite++ % PIPESIZE] = ch`. -/
def State.append (s : State Tid) (ch : Byte) : State Tid :=
  { s with ring := s.ring.push pipesize ch, appended := s.appended ++ [ch] }

/-- `ch = pi->data[pi->nread++ % PIPESIZE]`. -/
def State.take (s : State Tid) : State Tid :=
  { s with ring := s.ring.pop, taken := s.taken ++ [s.ring.front pipesize] }

/-- Wakeups only make a sleeping process runnable; it tests again under the lock, so here
it may do that whenever the lock is free.  The user addresses are mapped, so `copyin_new`
and `copyout` succeed. -/
inductive Step : State Tid → State Tid → Prop
  | pipewrite {s : State Tid} {t : Tid} (buf : List Byte) (hpc : s.pc t = .idle) :
      Step s (s.goto t (.writeAcquire buf))
  | writeAcquire {s : State Tid} {t : Tid} {buf : List Byte} (hpc : s.pc t = .writeAcquire buf)
      (hlock : s.lock = none) : Step s (s.gotoLock t (.writeLoop buf 0) (some t))
  | writeEnd {s : State Tid} {t : Tid} {buf : List Byte} {i : ℕ} (hpc : s.pc t = .writeLoop buf i)
      (hi : buf.length ≤ i) : Step s (s.goto t .writeRelease)
  /-- The reader is gone, or the process was killed. -/
  | writeFail {s : State Tid} {t : Tid} {buf : List Byte} {i : ℕ} (hpc : s.pc t = .writeLoop buf i)
      (hi : i < buf.length) (hfull : s.full) : Step s (s.gotoLock t .idle none)
  | writeSleep {s : State Tid} {t : Tid} {buf : List Byte} {i : ℕ}
      (hpc : s.pc t = .writeLoop buf i) (hi : i < buf.length) (hfull : s.full) :
      Step s (s.gotoLock t (.writeSleep buf i) none)
  | writeWake {s : State Tid} {t : Tid} {buf : List Byte} {i : ℕ} (hpc : s.pc t = .writeSleep buf i)
      (hlock : s.lock = none) : Step s (s.gotoLock t (.writeLoop buf i) (some t))
  | writeRoom {s : State Tid} {t : Tid} {buf : List Byte} {i : ℕ} (hpc : s.pc t = .writeLoop buf i)
      (hi : i < buf.length) (hroom : ¬ s.full) : Step s (s.goto t (.writeByte buf i))
  | writeByte {s : State Tid} {t : Tid} {buf : List Byte} {i : ℕ} {ch : Byte}
      (hpc : s.pc t = .writeByte buf i) (hch : buf[i]? = some ch) :
      Step s ((s.append ch).goto t (.writeLoop buf (i + 1)))
  | writeRelease {s : State Tid} {t : Tid} (hpc : s.pc t = .writeRelease) :
      Step s (s.gotoLock t .idle none)
  | piperead {s : State Tid} {t : Tid} (n : ℕ) (hpc : s.pc t = .idle) :
      Step s (s.goto t (.readAcquire n))
  | readAcquire {s : State Tid} {t : Tid} {n : ℕ} (hpc : s.pc t = .readAcquire n)
      (hlock : s.lock = none) : Step s (s.gotoLock t (.readWait n) (some t))
  /-- The process was killed. -/
  | readFail {s : State Tid} {t : Tid} {n : ℕ} (hpc : s.pc t = .readWait n) (hempty : s.empty)
      (hopen : s.writeopen) : Step s (s.gotoLock t .idle none)
  | readSleep {s : State Tid} {t : Tid} {n : ℕ} (hpc : s.pc t = .readWait n) (hempty : s.empty)
      (hopen : s.writeopen) : Step s (s.gotoLock t (.readSleep n) none)
  | readWake {s : State Tid} {t : Tid} {n : ℕ} (hpc : s.pc t = .readSleep n)
      (hlock : s.lock = none) : Step s (s.gotoLock t (.readWait n) (some t))
  | readStart {s : State Tid} {t : Tid} {n : ℕ} (hpc : s.pc t = .readWait n)
      (hready : ¬ (s.empty ∧ s.writeopen)) : Step s (s.goto t (.readLoop n []))
  | readEnd {s : State Tid} {t : Tid} {n : ℕ} {got : List Byte} (hpc : s.pc t = .readLoop n got)
      (hend : n ≤ got.length ∨ s.empty) : Step s (s.goto t .readRelease)
  | readSome {s : State Tid} {t : Tid} {n : ℕ} {got : List Byte} (hpc : s.pc t = .readLoop n got)
      (hmore : got.length < n) (hsome : ¬ s.empty) : Step s (s.goto t (.readByte n got))
  | readByte {s : State Tid} {t : Tid} {n : ℕ} {got : List Byte} (hpc : s.pc t = .readByte n got) :
      Step s (s.take.goto t (.readLoop n (got ++ [s.ring.front pipesize])))
  | readRelease {s : State Tid} {t : Tid} (hpc : s.pc t = .readRelease) :
      Step s (s.gotoLock t .idle none)
  /-- `pipeclose(pi, 1)` and `pipeclose(pi, 0)` while the other end is open. -/
  | closeWrite {s : State Tid} (hlock : s.lock = none) : Step s { s with writeopen := false }
  | closeRead {s : State Tid} (hlock : s.lock = none) : Step s { s with readopen := false }

/-! ## The invariant -/

/-- What the test before a transfer has found, and the lock keeps true until then. -/
def State.Ready (s : State Tid) : Pc → Prop
  | .writeByte _ _ => s.ring.count < pipesize
  | .readByte _ _ => 0 < s.ring.count
  | _ => True

structure Inv (s : State Tid) : Prop where
  held : ∀ t, (s.pc t).inside → s.lock = some t
  ready : ∀ t, s.Ready (s.pc t)
  bound : s.ring.count ≤ pipesize
  fifo : s.appended = s.taken ++ s.ring.contents pipesize

section Invariant

variable {s s' : State Tid} {t : Tid} {pc : Pc} {lock : Option Tid}

omit [DecidableEq Tid] in
theorem ready_of_not_inside (s : State Tid) (hpc : ¬ pc.inside) : s.Ready pc := by
  cases pc <;> simp_all [State.Ready, Pc.inside]

omit [DecidableEq Tid] in
theorem State.count_lt_of_not_full (hbound : s.ring.count ≤ pipesize) (hroom : ¬ s.full) :
    s.ring.count < pipesize := by
  have hne : s.ring.count ≠ pipesize := fun heq =>
    hroom ((Buffer.count_eq_size_iff (by decide) s.ring).mp heq)
  omega

omit [DecidableEq Tid] in
theorem State.count_pos_of_not_empty (hsome : ¬ s.empty) : 0 < s.ring.count :=
  Nat.pos_of_ne_zero fun hzero => hsome ((Buffer.count_eq_zero_iff s.ring).mp hzero)

/-- A process that moves on and may take the lock or give it up. -/
theorem Inv.gotoLock (h : Inv s) (hnew : pc.inside → lock = some t)
    (hothers : ∀ u, u ≠ t → (s.pc u).inside → lock = some u) (hready : s.Ready pc) :
    Inv (s.gotoLock t pc lock) := by
  refine ⟨fun u hu => ?_, fun u => ?_, h.bound, h.fifo⟩
  · by_cases heq : u = t
    · subst heq
      simp only [State.gotoLock, Function.update_self] at hu
      exact hnew hu
    · simp only [State.gotoLock, Function.update_of_ne heq] at hu
      exact hothers u heq hu
  · by_cases heq : u = t
    · subst heq
      simpa [State.gotoLock, State.Ready] using hready
    · simpa [State.gotoLock, State.Ready, heq] using h.ready u

theorem Inv.goto (h : Inv s) (hnew : pc.inside → s.lock = some t) (hready : s.Ready pc) :
    Inv (s.goto t pc) :=
  h.gotoLock hnew (fun u _ hu => h.held u hu) hready

theorem Inv.acquire (h : Inv s) (hlock : s.lock = none) (hready : s.Ready pc) :
    Inv (s.gotoLock t pc (some t)) := by
  refine h.gotoLock (fun _ => rfl) (fun u _ hu => ?_) hready
  have hheld := h.held u hu
  simp [hlock] at hheld

omit [DecidableEq Tid] in
theorem Inv.not_inside (h : Inv s) (ht : (s.pc t).inside) {u : Tid} (hne : u ≠ t) :
    ¬ (s.pc u).inside := by
  intro hu
  have hheld := h.held t ht
  rw [h.held u hu] at hheld
  exact hne (Option.some.inj hheld)

theorem Inv.release (h : Inv s) (ht : (s.pc t).inside) (hpc : ¬ pc.inside) :
    Inv (s.gotoLock t pc none) :=
  h.gotoLock (fun hin => absurd hin hpc) (fun _ hne hu => absurd hu (h.not_inside ht hne))
    (ready_of_not_inside s hpc)

/-- A transfer of the process that holds the lock. -/
theorem Inv.transfer (h : Inv s) (ht : (s.pc t).inside) (hlock : s'.lock = s.lock)
    (hpcs : s'.pc = s.pc) (hready : s'.Ready pc) (hbound : s'.ring.count ≤ pipesize)
    (hfifo : s'.appended = s'.taken ++ s'.ring.contents pipesize) : Inv (s'.goto t pc) := by
  refine ⟨fun u hu => ?_, fun u => ?_, hbound, hfifo⟩
  · rw [show (s'.goto t pc).lock = s.lock from hlock]
    by_cases heq : u = t
    · subst heq
      exact h.held u ht
    · simp only [State.goto, Function.update_of_ne heq, hpcs] at hu
      exact h.held u hu
  · by_cases heq : u = t
    · subst heq
      simpa [State.goto, State.Ready] using hready
    · apply ready_of_not_inside
      simp only [State.goto, Function.update_of_ne heq, hpcs]
      exact h.not_inside ht heq

omit [DecidableEq Tid] in
theorem inv_pipealloc (page : ℕ → Byte) : Inv (State.pipealloc page : State Tid) := by
  refine ⟨?_, ?_, ?_, ?_⟩ <;>
    simp [State.pipealloc, Pc.inside, State.Ready, Buffer.count, Buffer.contents]

theorem Inv.step (h : Inv s) (hstep : Step s s') : Inv s' := by
  cases hstep with
  | pipewrite buf hpc => exact h.goto (by simp [Pc.inside]) trivial
  | writeAcquire hpc hlock => exact h.acquire hlock trivial
  | writeEnd hpc hi => exact h.goto (fun _ => h.held _ (by rw [hpc]; rfl)) trivial
  | writeFail hpc hi hfull => exact h.release (by rw [hpc]; rfl) (by simp [Pc.inside])
  | writeSleep hpc hi hfull => exact h.release (by rw [hpc]; rfl) (by simp [Pc.inside])
  | writeWake hpc hlock => exact h.acquire hlock trivial
  | writeRoom hpc hi hroom =>
      exact h.goto (fun _ => h.held _ (by rw [hpc]; rfl)) (State.count_lt_of_not_full h.bound hroom)
  | @writeByte t buf i ch hpc hch =>
      have hroom : s.ring.count < pipesize := by
        have hready := h.ready t
        rwa [hpc] at hready
      refine h.transfer (by rw [hpc]; rfl) rfl rfl trivial ?_ ?_
      · simp only [State.append, Buffer.count_push (by decide) hroom]
        omega
      · simp only [State.append, Buffer.contents_push (by decide) (by decide) hroom, h.fifo,
          List.append_assoc]
  | writeRelease hpc => exact h.release (by rw [hpc]; rfl) (by simp [Pc.inside])
  | piperead n hpc => exact h.goto (by simp [Pc.inside]) trivial
  | readAcquire hpc hlock => exact h.acquire hlock trivial
  | readFail hpc hempty hopen => exact h.release (by rw [hpc]; rfl) (by simp [Pc.inside])
  | readSleep hpc hempty hopen => exact h.release (by rw [hpc]; rfl) (by simp [Pc.inside])
  | readWake hpc hlock => exact h.acquire hlock trivial
  | readStart hpc hready => exact h.goto (fun _ => h.held _ (by rw [hpc]; rfl)) trivial
  | readEnd hpc hend => exact h.goto (fun _ => h.held _ (by rw [hpc]; rfl)) trivial
  | readSome hpc hmore hsome =>
      exact h.goto (fun _ => h.held _ (by rw [hpc]; rfl)) (State.count_pos_of_not_empty hsome)
  | @readByte t n got hpc =>
      have hsome : 0 < s.ring.count := by
        have hready := h.ready t
        rwa [hpc] at hready
      have hcount := Buffer.count_pop hsome
      refine h.transfer (by rw [hpc]; rfl) rfl rfl trivial ?_ ?_
      · have hbound := h.bound
        simp only [State.take]
        omega
      · simp only [State.take, List.append_assoc, List.singleton_append]
        rw [← Buffer.contents_pop hsome, h.fifo]
  | readRelease hpc => exact h.release (by rw [hpc]; rfl) (by simp [Pc.inside])
  | closeWrite hlock => exact ⟨h.held, h.ready, h.bound, h.fifo⟩
  | closeRead hlock => exact ⟨h.held, h.ready, h.bound, h.fifo⟩

/-! ## The calls and the queue -/

/-- What `pipewrite` has put in so far. -/
def Pc.sent : Pc → List Byte
  | .writeLoop buf i | .writeSleep buf i | .writeByte buf i => buf.take i
  | _ => []

/-- What `piperead` has taken out so far. -/
def Pc.got : Pc → List Byte
  | .readLoop _ got | .readByte _ got => got
  | _ => []

/-- What a writer has put in has been put in in this order, and what a reader has got has been
taken last, since it has not given up the lock. -/
structure Delivers (s : State Tid) : Prop where
  sent : ∀ t, (s.pc t).sent.Sublist s.appended
  got : ∀ t, (s.pc t).got <:+ s.taken

/-- A step without a transfer. -/
theorem Delivers.gotoLock (h : Delivers s) (hsent : pc.sent = [] ∨ pc.sent = (s.pc t).sent)
    (hgot : pc.got = [] ∨ pc.got = (s.pc t).got) : Delivers (s.gotoLock t pc lock) := by
  constructor
  · intro u
    by_cases heq : u = t
    · subst heq
      simp only [State.gotoLock, Function.update_self]
      rcases hsent with hnil | hsame
      · rw [hnil]
        exact List.nil_sublist _
      · rw [hsame]
        exact h.sent u
    · simpa only [State.gotoLock, Function.update_of_ne heq] using h.sent u
  · intro u
    by_cases heq : u = t
    · subst heq
      simp only [State.gotoLock, Function.update_self]
      rcases hgot with hnil | hsame
      · rw [hnil]
        exact List.nil_suffix
      · rw [hsame]
        exact h.got u
    · simpa only [State.gotoLock, Function.update_of_ne heq] using h.got u

theorem Delivers.goto (h : Delivers s) (hsent : pc.sent = [] ∨ pc.sent = (s.pc t).sent)
    (hgot : pc.got = [] ∨ pc.got = (s.pc t).got) : Delivers (s.goto t pc) :=
  h.gotoLock hsent hgot

omit [DecidableEq Tid] in
theorem Pc.got_of_not_inside (hpc : ¬ pc.inside) : pc.got = [] := by
  cases pc <;> simp_all [Pc.inside, Pc.got]

/-- A writer puts in its next byte. -/
theorem Delivers.append (h : Delivers s) {buf : List Byte} {i : ℕ} {ch : Byte}
    (hpc : s.pc t = .writeByte buf i) (hch : buf[i]? = some ch) :
    Delivers ((s.append ch).goto t (.writeLoop buf (i + 1))) := by
  constructor
  · intro u
    by_cases heq : u = t
    · subst heq
      have hsent := h.sent u
      rw [hpc] at hsent
      simp only [State.goto, State.append, Function.update_self, Pc.sent]
      rw [List.take_add_one, hch]
      exact hsent.append (List.Sublist.refl [ch])
    · simp only [State.goto, State.append, Function.update_of_ne heq]
      exact (h.sent u).trans (List.sublist_append_left ..)
  · intro u
    by_cases heq : u = t
    · subst heq
      simp only [State.goto, State.append, Function.update_self, Pc.got]
      exact List.nil_suffix
    · simpa only [State.goto, State.append, Function.update_of_ne heq] using h.got u

/-- A reader takes the next byte, and no other one is in its loop. -/
theorem Delivers.take (h : Delivers s) (hinv : Inv s) {n : ℕ} {got : List Byte}
    (hpc : s.pc t = .readByte n got) :
    Delivers (s.take.goto t (.readLoop n (got ++ [s.ring.front pipesize]))) := by
  constructor
  · intro u
    by_cases heq : u = t
    · subst heq
      simp only [State.goto, State.take, Function.update_self, Pc.sent]
      exact List.nil_sublist _
    · simpa only [State.goto, State.take, Function.update_of_ne heq] using h.sent u
  · intro u
    by_cases heq : u = t
    · subst heq
      have hgot := h.got u
      rw [hpc] at hgot
      simp only [State.goto, State.take, Function.update_self, Pc.got]
      obtain ⟨before, hbefore⟩ := hgot
      exact ⟨before, by rw [← hbefore, List.append_assoc]; rfl⟩
    · have hnil := Pc.got_of_not_inside (hinv.not_inside (by rw [hpc]; rfl) heq)
      simp only [State.goto, State.take, Function.update_of_ne heq, hnil]
      exact List.nil_suffix

theorem Delivers.step (h : Delivers s) (hinv : Inv s) (hstep : Step s s') : Delivers s' := by
  cases hstep with
  | writeByte hpc hch => exact h.append hpc hch
  | readByte hpc => exact h.take hinv hpc
  | readStart hpc hready | readEnd hpc hend | readSome hpc hmore hsome =>
      exact h.goto (by simp [Pc.sent, hpc]) (by simp [Pc.got, hpc])
  | pipewrite buf hpc | writeEnd hpc hi | writeRoom hpc hi hroom | piperead n hpc =>
      exact h.goto (by simp [Pc.sent, hpc]) (Or.inl rfl)
  | writeAcquire hpc hlock | writeFail hpc hi hfull | writeSleep hpc hi hfull
  | writeWake hpc hlock | writeRelease hpc | readAcquire hpc hlock | readFail hpc hempty hopen
  | readSleep hpc hempty hopen | readWake hpc hlock | readRelease hpc =>
      exact h.gotoLock (by simp [Pc.sent, hpc]) (Or.inl rfl)
  | closeWrite hlock | closeRead hlock => exact ⟨h.sent, h.got⟩

theorem reachable_delivers {page : ℕ → Byte}
    (hreach : Reachable Step (State.pipealloc page) s) : Inv s ∧ Delivers s :=
  reachable_invariant (fun s => Inv s ∧ Delivers s)
    ⟨inv_pipealloc page, fun _ => List.nil_sublist _, fun _ => List.nil_suffix⟩
    (fun _ _ h hstep => ⟨h.1.step hstep, h.2.step h.1 hstep⟩) hreach

/-- **A pipe is a queue.**  Whatever calls run on it and however they interleave, at most
`PIPESIZE` bytes are unread, the unread bytes in the order of the ring are the bytes put
in and not yet taken, and the bytes taken are the first ones put in, in their order.  What a
`pipewrite` has written of its buffer is among the bytes put in, in the order of the buffer, and
what a `piperead` has got is the end of the bytes taken. -/
theorem pipe_fifo {page : ℕ → Byte} (hreach : Reachable Step (State.pipealloc page) s) :
    (s.ring.nwrite - s.ring.nread).toNat ≤ pipesize ∧
      s.ring.contents pipesize = s.appended.drop s.taken.length ∧ s.taken <+: s.appended ∧
      ∀ t, (s.pc t).sent.Sublist s.appended ∧ (s.pc t).got <:+ s.taken := by
  obtain ⟨hinv, hdelivers⟩ := reachable_delivers hreach
  refine ⟨hinv.bound, ?_, ?_, fun t => ⟨hdelivers.sent t, hdelivers.got t⟩⟩
  · rw [hinv.fifo, List.drop_left]
  · rw [hinv.fifo]
    exact List.prefix_append ..

end Invariant

section Example

/-- Process 0 writes two bytes and process 1 reads one of them. -/
theorem exists_transfer : ∃ s : State (Fin 2), Reachable Step (State.pipealloc fun _ => 0) s ∧
    s.appended = [7, 8] ∧ s.taken = [7] ∧ (s.pc 1).got = [7] := by
  have hreach : Reachable Step (State.pipealloc (fun _ => 0) : State (Fin 2)) _ := .refl
  replace hreach := hreach.tail (.pipewrite (t := 0) [7, 8] rfl)
  replace hreach := hreach.tail (.writeAcquire (t := 0) rfl rfl)
  replace hreach := hreach.tail (.writeRoom (t := 0) rfl (by decide) (by decide))
  replace hreach := hreach.tail (.writeByte (t := 0) rfl rfl)
  replace hreach := hreach.tail (.writeRoom (t := 0) rfl (by decide) (by decide))
  replace hreach := hreach.tail (.writeByte (t := 0) rfl rfl)
  replace hreach := hreach.tail (.writeEnd (t := 0) rfl (by decide))
  replace hreach := hreach.tail (.writeRelease (t := 0) rfl)
  replace hreach := hreach.tail (.piperead (t := 1) 1 rfl)
  replace hreach := hreach.tail (.readAcquire (t := 1) rfl rfl)
  replace hreach := hreach.tail (.readStart (t := 1) rfl (by decide))
  replace hreach := hreach.tail (.readSome (t := 1) rfl (by decide) (by decide))
  replace hreach := hreach.tail (.readByte (t := 1) rfl)
  exact ⟨_, hreach, rfl, rfl, rfl⟩

theorem pipe_fifo_transfer : ∃ s : State (Fin 2), Reachable Step (State.pipealloc fun _ => 0) s ∧
    s.ring.contents pipesize = [8] ∧ [7] <:+ s.taken := by
  obtain ⟨s, hreach, happended, htaken, hgot⟩ := exists_transfer
  obtain ⟨-, hunread, -, hcalls⟩ := pipe_fifo hreach
  refine ⟨s, hreach, ?_, ?_⟩
  · rw [hunread, happended, htaken]
    rfl
  · rw [← hgot]
    exact (hcalls 1).2

end Example

end OperateSystem.Pipe

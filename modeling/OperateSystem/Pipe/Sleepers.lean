import OperateSystem.Pipe.Closing

/-!
# Who sleeps on a pipe

A reader sleeps until there are bytes and a writer until there is room.  When the lock of the
pipe is free, a process that sleeps or is about to has a reason to, because whoever took the
reason away has woken it up since.

The exception is `pipewrite` in a process that was killed: it may fill the pipe and then
return -1 without waking the readers.
-/

namespace OperateSystem.Pipe.Closing

open OperateSystem.Invariant

/-- The side on which a process sleeps or is going to sleep. -/
def Pc.rests : Pc → Option Side
  | .sleep frame _ => some frame.side
  | .wakeup .read _ (.sleep _ _) => some .write
  | _ => none

/-- The process is going to look at process number `q` in a `wakeup(chan)`. -/
def Pc.Owes (chan : Side) (q : ℕ) : Pc → Prop
  | .wakeup chan' next _ => chan' = chan ∧ next ≤ q
  | .readLoop _ _ => chan = .write
  | _ => False

variable {nproc : ℕ}

/-- The reason to sleep on a side. -/
def State.Justified (s : State nproc) : Side → Prop
  | .read => s.pi.Empty ∧ s.pi.writeopen ∨ s.unannounced
  | .write => s.pi.Full ∧ s.pi.readopen ∧ s.unannounced = false

/-- Whoever rests on the pipe has a reason or is going to be woken up. -/
def Rested (s : State nproc) : Prop :=
  ∀ q side, (s.pc q).rests = some side → s.Justified side ∨ ∃ t, (s.pc t).Owes side q

/-- Bytes that no wakeup has followed are in the hands of `pipewrite`, or it has given up. -/
def Announced (s : State nproc) : Prop :=
  s.unannounced → (∃ t n i, s.pc t = .writeLoop n i) ∨ s.gaveUp ∨ s.pi.readopen = false

section Invariant

variable {s s' : State nproc} {p q : Fin nproc} {pc : Pc}

/-- A step in the code of process `p`. -/
theorem Rested.move (h : Rested s) (hpc : s'.pc = Function.update s.pc p pc)
    (hrests : ∀ side, pc.rests = some side → (s.pc p).rests = some side ∨ s'.Justified side)
    (hreason : ∀ side, s.Justified side → s'.Justified side ∨ ∀ q, pc.Owes side q)
    (howes : ∀ side (q : Fin nproc), (s.pc q).rests = some side → (s.pc p).Owes side q →
      s'.Justified side ∨ pc.Owes side q) : Rested s' := by
  have hpcp : s'.pc p = pc := by simp [hpc]
  -- A process that rested before the step.
  have hkept : ∀ q side, (s.pc q).rests = some side →
      s'.Justified side ∨ ∃ t, (s'.pc t).Owes side q := by
    intro q side hq
    rcases h q side hq with hreasonable | ⟨t, ht⟩
    · rcases hreason side hreasonable with hstill | howing
      · exact Or.inl hstill
      · exact Or.inr ⟨p, by rw [hpcp]; exact howing q⟩
    · by_cases heq : t = p
      · subst heq
        rcases howes side q hq ht with hstill | howing
        · exact Or.inl hstill
        · exact Or.inr ⟨t, by rwa [hpcp]⟩
      · exact Or.inr ⟨t, by simpa [hpc, heq] using ht⟩
  intro q side hq
  by_cases heq : q = p
  · subst heq
    rw [hpcp] at hq
    rcases hrests side hq with hold | hnew
    · exact hkept q side hold
    · exact Or.inl hnew
  · exact hkept q side (by simpa [hpc, heq] using hq)

/-- The same when neither the pipe nor the record of its bytes changes, and the process was not
going to wake anybody. -/
theorem Rested.goOn (h : Rested s) (hpc : s'.pc = Function.update s.pc p pc)
    (hpi : s'.pi = s.pi) (hunannounced : s'.unannounced = s.unannounced)
    (hrests : ∀ side, pc.rests = some side → (s.pc p).rests = some side ∨ s'.Justified side)
    (howes : ∀ side (q : Fin nproc), ¬ (s.pc p).Owes side q) : Rested s' := by
  refine h.move hpc hrests (fun side hside => Or.inl ?_) fun side q _ hq =>
    absurd hq (howes side q)
  cases side <;> simpa only [State.Justified, hpi, hunannounced] using hside

/-- A step that wakes the readers, from `pipewrite` or from `pipeclose`. -/
theorem Rested.wakeReaders (h : Rested s) {next : Next}
    (hpc : s'.pc = Function.update s.pc p (.wakeup .read 0 next))
    (hfull : s'.pi.Full ↔ s.pi.Full) (hreadopen : s'.pi.readopen = s.pi.readopen)
    (hunannounced : s'.unannounced = false) (howes : ∀ side (q : Fin nproc), ¬ (s.pc p).Owes side q)
    (hrests : ∀ n i, next = .sleep n i → s.pi.Full ∧ s.pi.readopen) : Rested s' := by
  refine h.move hpc (fun side hside => Or.inr ?_) (fun side hside => ?_) fun side q _ hq =>
    absurd hq (howes side q)
  · cases next with
    | sleep n i =>
        simp only [Pc.rests, Option.some.injEq] at hside
        subst hside
        obtain ⟨hfull', hopen⟩ := hrests n i rfl
        exact ⟨hfull.mpr hfull', hreadopen.trans hopen, hunannounced⟩
    | _ => simp [Pc.rests] at hside
  · cases side with
    | read => exact Or.inr fun q => ⟨rfl, Nat.zero_le _⟩
    | write => exact Or.inl ⟨hfull.mpr hside.1, hreadopen.trans hside.2.1, hunannounced⟩

/-- A step that wakes the writers, from `piperead` or from `pipeclose`. -/
theorem Rested.wakeWriters (h : Rested s) {next : Next}
    (hpc : s'.pc = Function.update s.pc p (.wakeup .write 0 next))
    (hempty : s.pi.Empty → s'.pi.Empty) (hwriteopen : s'.pi.writeopen = s.pi.writeopen)
    (hunannounced : s'.unannounced = s.unannounced)
    (howes : ∀ side (q : Fin nproc), (s.pc p).Owes side q → side = .write) : Rested s' := by
  refine h.move hpc (fun side hside => ?_) (fun side hside => ?_) fun side q _ hq => ?_
  · simp [Pc.rests] at hside
  · cases side with
    | read =>
        refine Or.inl (hside.imp (fun hreason => ?_) fun hun => ?_)
        · exact ⟨hempty hreason.1, hwriteopen.trans hreason.2⟩
        · rwa [hunannounced]
    | write => exact Or.inr fun q => ⟨rfl, Nat.zero_le _⟩
  · exact Or.inr ⟨(howes side q hq).symm, Nat.zero_le _⟩

theorem Rested.roused (h : Rested s) {frame : Frame} (hpc : s.pc p = .sleep frame .asleep) :
    Rested (s.goto p (.acquire frame)) :=
  h.goOn rfl rfl rfl (by simp [Pc.rests]) (by simp [hpc, Pc.Owes])

theorem Rested.rouse (h : Rested s) (p : Fin nproc) : Rested (s.goto p (s.pc p).rouse) := by
  rcases (s.pc p).rouse_cases with ⟨frame, hpc, hrouse⟩ | hsame
  · rw [hrouse]
    exact h.roused hpc
  · rw [hsame, s.goto_self]
    exact h

theorem Rested.wake (h : Rested s) (p : Fin nproc) (chan : Side) :
    Rested (s.goto p ((s.pc p).wake chan)) := by
  rcases (s.pc p).wake_cases chan with ⟨frame, hpc, -, hwake⟩ | hsame
  · rw [hwake]
    exact h.roused hpc
  · rw [hsame, s.goto_self]
    exact h

/-- A process that the loop of `wakeup(chan)` has passed does not rest on that channel. -/
theorem Pc.rests_wake {chan : Side} {pc : Pc} (hlock : ¬ pc.ownLock)
    (hnot : ∀ q n i, pc = .wakeup .read q (.sleep n i) → chan = .read) :
    (pc.wake chan).rests ≠ some chan := by
  cases pc with
  | sleep frame doze =>
      cases doze with
      | asleep =>
          by_cases hside : frame.side = chan
          · simp [Pc.wake, hside, Pc.rests]
          · simp [Pc.wake, hside, Pc.rests]
      | _ => exact absurd rfl hlock
  | wakeup chan' q next =>
      intro hrests
      cases chan' with
      | read =>
          cases next with
          | sleep n i =>
              obtain rfl := hnot q n i rfl
              simp [Pc.wake, Pc.rests] at hrests
          | _ => simp [Pc.wake, Pc.rests] at hrests
      | write => simp [Pc.wake, Pc.rests] at hrests
  | _ => simp [Pc.wake, Pc.rests]

/-- One turn of the loop of `wakeup(chan)`. -/
theorem Rested.wakeupSlot (h : Rested s) (hends : Ends s) {chan : Side} {next : Next}
    (hpc : s.pc p = .wakeup chan q next) (hlock : ¬ (s.pc q).ownLock) :
    Rested ((s.goto q ((s.pc q).wake chan)).goto p (.wakeup chan (q + 1) next)) := by
  have hpc' : (s.goto q ((s.pc q).wake chan)).pc p = .wakeup chan q next := by
    by_cases heq : p = q
    · subst heq
      simp [State.goto, hpc, Pc.wake]
    · simpa [State.goto, heq] using hpc
  have hpassed : ((s.pc q).wake chan).rests ≠ some chan := by
    refine Pc.rests_wake hlock fun j n i hq => ?_
    by_cases heq : q = p
    · subst heq
      rw [hpc] at hq
      exact (Pc.wakeup.inj hq).1
    · exact absurd (by rw [hq]; rfl) (hends.not_inside (by rw [hpc]; rfl) heq)
  refine (h.wake q chan).move rfl (fun side hside => Or.inl ?_) (fun side hside => Or.inl hside)
    fun side r hr howes => Or.inr ?_
  · rw [hpc']
    cases chan <;> cases next <;> exact hside
  · rw [hpc'] at howes
    obtain ⟨rfl, hle⟩ := howes
    refine ⟨rfl, Nat.lt_of_le_of_ne hle fun heq => hpassed ?_⟩
    obtain rfl := Fin.ext heq
    simpa [State.goto] using hr

theorem Pc.not_owes_nproc {chan : Side} {next : Next} (side : Side) (q : Fin nproc) :
    ¬ (Pc.wakeup chan nproc next).Owes side q := fun howes =>
  absurd q.isLt (Nat.not_lt.mpr howes.2)

theorem Rested.step (h : Rested s) (hends : Ends s) (hstep : Step s s') : Rested s' := by
  cases hstep with
  | filedup side q hpc href => exact h
  | fileclose side hpc href hmore => exact h
  | filecloseLast side hpc href hlast =>
      exact h.goOn rfl rfl rfl (by simp [Pc.rests]) (by simp [hpc, Pc.Owes])
  | @kill p hlock => exact h.rouse p
  | freeproc hpc hrefs => exact h
  | pipewrite n hpc href =>
      exact h.goOn rfl rfl rfl (by simp [Pc.rests]) (by simp [hpc, Pc.Owes])
  | piperead n hpc href =>
      exact h.goOn rfl rfl rfl (by simp [Pc.rests]) (by simp [hpc, Pc.Owes])
  | @acquire p frame hpc hlock =>
      exact h.goOn rfl rfl rfl (by cases frame <;> simp [Frame.resume, Pc.rests])
        (by simp [hpc, Pc.Owes])
  | writeDone hpc hi =>
      exact h.wakeReaders rfl Iff.rfl rfl (by simp [State.startWakeup]) (by simp [hpc, Pc.Owes])
        (by simp)
  | writeFail hpc hi hfull hfail =>
      exact h.goOn rfl rfl rfl (by simp [Pc.rests]) (by simp [hpc, Pc.Owes])
  | writeFull hpc hi hfull hopen hkilled =>
      exact h.wakeReaders rfl Iff.rfl rfl (by simp [State.startWakeup]) (by simp [hpc, Pc.Owes])
        fun _ _ _ => ⟨hfull, hopen⟩
  | writeFault hpc hi hroom =>
      exact h.wakeReaders rfl Iff.rfl rfl (by simp [State.startWakeup]) (by simp [hpc, Pc.Owes])
        (by simp)
  | writeByte hpc hi hroom ch =>
      refine h.move rfl (by simp [Pc.rests]) (fun side hside => Or.inl ?_)
        (by simp [hpc, Pc.Owes])
      cases side with
      | read => exact Or.inr rfl
      | write => exact absurd hside.1 hroom
  | readFail hpc hempty hopen hkilled =>
      exact h.goOn rfl rfl rfl (by simp [Pc.rests]) (by simp [hpc, Pc.Owes])
  | readSleep hpc hempty hopen hkilled =>
      refine h.goOn rfl rfl rfl (fun side hside => Or.inr ?_) (by simp [hpc, Pc.Owes])
      simp only [Pc.rests, Frame.side, Option.some.injEq] at hside
      subst hside
      exact Or.inl ⟨hempty, hopen⟩
  | readStart hpc hready =>
      exact h.goOn rfl rfl rfl (by simp [Pc.rests]) (by simp [hpc, Pc.Owes])
  | readDone hpc hend =>
      exact h.wakeWriters rfl id rfl (by simp [State.startWakeup]) (by simp [hpc, Pc.Owes])
  | readByte hpc hi hsome =>
      refine h.move rfl (by simp [Pc.rests]) (fun side hside => ?_) fun side q _ howes => Or.inr ?_
      · cases side with
        | read => exact Or.inl (hside.imp (fun hempty => absurd hempty.1 hsome) id)
        | write => exact Or.inr fun _ => rfl
      · rwa [hpc] at howes
  | readFault hpc hi hsome =>
      exact h.wakeWriters rfl (fun hempty => absurd hempty hsome) rfl
        (by simp [State.startWakeup, State.setPipe]) (by simp [hpc, Pc.Owes])
  | wakeupSlot q hpc hlock => exact h.wakeupSlot hends hpc hlock
  | wakeupSleep hpc =>
      refine h.goOn rfl rfl rfl (fun side hside => Or.inl (by rw [hpc]; exact hside)) ?_
      rw [hpc]
      exact Pc.not_owes_nproc
  | wakeupDone hpc =>
      refine h.goOn rfl rfl rfl (by simp [Pc.rests]) ?_
      rw [hpc]
      exact Pc.not_owes_nproc
  | wakeupClose hpc =>
      refine h.goOn rfl rfl rfl (by simp [Pc.rests]) ?_
      rw [hpc]
      exact Pc.not_owes_nproc
  | sleepRelease hpc =>
      exact h.goOn rfl rfl rfl (fun side hside => Or.inl (by rw [hpc]; exact hside))
        (by simp [hpc, Pc.Owes])
  | sleepSched hpc =>
      exact h.goOn rfl rfl rfl (fun side hside => Or.inl (by rw [hpc]; exact hside))
        (by simp [hpc, Pc.Owes])
  | @pipeclose p side hpc hlock =>
      cases side with
      | read =>
          exact h.wakeWriters rfl id rfl (by simp [State.startWakeup, State.setPipe, Side.other])
            (by simp [hpc, Pc.Owes])
      | write =>
          exact h.wakeReaders rfl Iff.rfl rfl (by simp [State.startWakeup, Side.other])
            (by simp [hpc, Pc.Owes]) (by simp)
  | closeFirst side hpc hopen =>
      exact h.goOn rfl rfl rfl (by simp [Pc.rests]) (by simp [hpc, Pc.Owes])
  | closeLast hpc hclosed =>
      exact h.goOn rfl rfl rfl (by simp [Pc.rests]) (by simp [hpc, Pc.Owes])
  | kfree hpc => exact h.goOn rfl rfl rfl (by simp [Pc.rests]) (by simp [hpc, Pc.Owes])

/-! ## Bytes that nobody has announced -/

theorem Announced.move (h : Announced s) (hpc : s'.pc = Function.update s.pc p pc)
    (hunannounced : s'.unannounced → s.unannounced) (hgaveUp : s.gaveUp → s'.gaveUp)
    (hopen : s.pi.readopen = false → s'.pi.readopen = false)
    (hwriter : ∀ n i, s.pc p = .writeLoop n i → s'.unannounced →
      (∃ n' i', pc = .writeLoop n' i') ∨ s'.gaveUp ∨ s'.pi.readopen = false) :
    Announced s' := by
  intro hun
  rcases h (hunannounced hun) with ⟨t, n, i, ht⟩ | hrest
  · by_cases heq : t = p
    · subst heq
      refine (hwriter n i ht hun).imp ?_ id
      rintro ⟨n', i', rfl⟩
      exact ⟨t, n', i', by simp [hpc]⟩
    · exact Or.inl ⟨t, n, i, by simpa [hpc, heq] using ht⟩
  · exact Or.inr (hrest.imp hgaveUp hopen)

/-- A step outside the loop of `pipewrite`. -/
theorem Announced.goOn (h : Announced s) (hpc : s'.pc = Function.update s.pc p pc)
    (hpi : s'.pi.readopen = s.pi.readopen) (hunannounced : s'.unannounced = s.unannounced)
    (hgaveUp : s'.gaveUp = s.gaveUp) (hout : ∀ n i, s.pc p ≠ .writeLoop n i) : Announced s' := by
  refine h.move hpc (by simp [hunannounced]) (by simp [hgaveUp]) (by simp [hpi]) ?_
  intro n i hp
  exact absurd hp (hout n i)

theorem Announced.roused (h : Announced s) {frame : Frame} (hpc : s.pc p = .sleep frame .asleep) :
    Announced (s.goto p (.acquire frame)) :=
  h.goOn rfl rfl rfl rfl (by simp [hpc])

theorem announced_of (hnone : s.unannounced = false) : Announced s := by
  simp [Announced, hnone]

theorem Announced.step (h : Announced s) (hstep : Step s s') : Announced s' := by
  cases hstep with
  | filedup side q hpc href => exact h
  | fileclose side hpc href hmore => exact h
  | freeproc hpc hrefs => exact h
  | @kill p hlock =>
      rcases (s.pc p).rouse_cases with ⟨frame, hpc, hrouse⟩ | hsame
      · rw [hrouse]
        exact h.roused hpc
      · rw [hsame, s.goto_self]
        exact h
  | writeDone hpc hi => exact announced_of (by simp [State.startWakeup])
  | writeFull hpc hi hfull hopen hkilled => exact announced_of (by simp [State.startWakeup])
  | writeFault hpc hi hroom => exact announced_of (by simp [State.startWakeup])
  | writeFail hpc hi hfull hfail =>
      refine h.move rfl id (fun hgaveUp => by simp [hgaveUp]) id fun _ _ _ _ => Or.inr ?_
      exact hfail.symm.imp (fun hkilled => by simp [hkilled]) id
  | @writeByte p n i hpc hi hroom ch =>
      exact fun _ => Or.inl ⟨p, n, i + 1, by simp [State.goto]⟩
  | readDone hpc hend =>
      exact h.goOn rfl rfl (by simp [State.startWakeup]) rfl (by simp [hpc])
  | readFault hpc hi hsome =>
      exact h.goOn rfl rfl (by simp [State.startWakeup, State.setPipe]) rfl (by simp [hpc])
  | @wakeupSlot p chan next q hpc hlock =>
      have hwoken : Announced (s.goto q ((s.pc q).wake chan)) := by
        rcases (s.pc q).wake_cases chan with ⟨frame, hpcq, -, hwake⟩ | hsame
        · rw [hwake]
          exact h.roused hpcq
        · rw [hsame, s.goto_self]
          exact h
      refine hwoken.goOn rfl rfl rfl rfl fun n i => ?_
      by_cases heq : p = q
      · subst heq
        simp [State.goto, hpc, Pc.wake]
      · simp [State.goto, heq, hpc]
  | @pipeclose p side hpc hlock =>
      cases side with
      | read =>
          exact h.move rfl (by simp [State.startWakeup, State.setPipe, Side.other]) id
            (fun _ => rfl) (by simp [hpc])
      | write => exact announced_of (by simp [State.startWakeup, Side.other])
  | filecloseLast side hpc href hlast => exact h.goOn rfl rfl rfl rfl (by simp [hpc])
  | pipewrite n hpc href => exact h.goOn rfl rfl rfl rfl (by simp [hpc])
  | piperead n hpc href => exact h.goOn rfl rfl rfl rfl (by simp [hpc])
  | acquire hpc hlock => exact h.goOn rfl rfl rfl rfl (by simp [hpc])
  | readFail hpc hempty hopen hkilled => exact h.goOn rfl rfl rfl rfl (by simp [hpc])
  | readSleep hpc hempty hopen hkilled => exact h.goOn rfl rfl rfl rfl (by simp [hpc])
  | readStart hpc hready => exact h.goOn rfl rfl rfl rfl (by simp [hpc])
  | readByte hpc hi hsome => exact h.goOn rfl rfl rfl rfl (by simp [hpc])
  | wakeupSleep hpc => exact h.goOn rfl rfl rfl rfl (by simp [hpc])
  | wakeupDone hpc => exact h.goOn rfl rfl rfl rfl (by simp [hpc])
  | wakeupClose hpc => exact h.goOn rfl rfl rfl rfl (by simp [hpc])
  | sleepRelease hpc => exact h.goOn rfl rfl rfl rfl (by simp [hpc])
  | sleepSched hpc => exact h.goOn rfl rfl rfl rfl (by simp [hpc])
  | closeFirst side hpc hopen => exact h.goOn rfl rfl rfl rfl (by simp [hpc])
  | closeLast hpc hclosed => exact h.goOn rfl rfl rfl rfl (by simp [hpc])
  | kfree hpc => exact h.goOn rfl rfl rfl rfl (by simp [hpc])

end Invariant

/-! ## Runs -/

theorem full_iff (pi : PipeData) : pi.Full ↔ pi.ring.count = pipesize :=
  (RingBuffer.Buffer.count_eq_size_iff (by decide) pi.ring).symm

theorem not_full_of_empty {pi : PipeData} (hempty : pi.Empty) : ¬ pi.Full := by
  rw [full_iff, (RingBuffer.Buffer.count_eq_zero_iff pi.ring).mpr hempty]
  decide

section Runs

variable {s : State nproc} {p q r : Fin nproc} {page : ℕ → Byte} {killed : Fin nproc → Bool}

theorem reachable_rested (hreach : Reachable Step (State.pipealloc page p killed) s) :
    Inv s ∧ Rested s ∧ Announced s := by
  refine reachable_invariant (fun s => Inv s ∧ Rested s ∧ Announced s)
    ⟨inv_pipealloc page p killed, ?_, announced_of rfl⟩ ?_ hreach
  · intro q side hq
    simp [State.pipealloc, Pc.rests] at hq
  · rintro before after ⟨hinv, hrested, hannounced⟩ hstep
    exact ⟨hinv.step hstep, hrested.step hinv.toEnds hstep, hannounced.step hstep⟩

theorem Ends.justified (h : Ends s) (hrested : Rested s) (hlock : s.lock = none) {side : Side}
    (hq : (s.pc q).rests = some side) : s.Justified side := by
  rcases hrested q side hq with hreason | ⟨t, ht⟩
  · exact hreason
  · have hout := h.nobody_inside hlock t
    cases hpc : s.pc t <;> simp_all [Pc.Owes, Pc.inside]

/-- Somebody has the other end, or is about to close it. -/
def State.Served (s : State nproc) (side : Side) : Prop :=
  ∃ p, 0 < s.refs side p ∨ s.pc p = .closeAcquire side

theorem Ends.served (h : Ends s) {side : Side} (hopen : isOpen s.pi side) : s.Served side := by
  rcases h.opened side hopen with hsome | ⟨p, hp⟩
  · simp only [State.Dropped, not_forall] at hsome
    obtain ⟨p, hp⟩ := hsome
    exact ⟨p, Or.inl (Nat.pos_of_ne_zero hp)⟩
  · exact ⟨p, Or.inr hp⟩

/-- **Nobody sleeps on a pipe without a reason.**  When the lock of the pipe is free, a writer
that sleeps faces a full pipe and a reader an empty one, and there is a process to wait for, which
has the other end open or is about to close it.  A reader may also have been left with bytes, by
a process that was killed and has given up `pipewrite`.  In no case do a reader and a writer
both sleep. -/
theorem no_lost_wakeup (hreach : Reachable Step (State.pipealloc page p killed) s)
    (hlock : s.lock = none) :
    (∀ q n i doze, s.pc q = .sleep (.write n i) doze → s.pi.Full ∧ s.Served .read) ∧
      (∀ q n doze, s.pc q = .sleep (.read n) doze →
        s.pi.Empty ∧ s.Served .write ∨ s.unannounced ∧ s.gaveUp) ∧
      ∀ q r n n' i doze doze', s.pc q = .sleep (.read n) doze →
        s.pc r ≠ .sleep (.write n' i) doze' := by
  obtain ⟨hinv, hrested, hannounced⟩ := reachable_rested hreach
  have hwriter : ∀ q n i doze, s.pc q = .sleep (.write n i) doze → s.Justified .write :=
    fun q n i doze hq => hinv.toEnds.justified (q := q) hrested hlock (by rw [hq]; rfl)
  have hreader : ∀ q n doze, s.pc q = .sleep (.read n) doze → s.Justified .read :=
    fun q n doze hq => hinv.toEnds.justified (q := q) hrested hlock (by rw [hq]; rfl)
  refine ⟨fun q n i doze hq => ?_, fun q n doze hq => ?_, fun q r n n' i doze doze' hq hr => ?_⟩
  · obtain ⟨hfull, hopen, -⟩ := hwriter q n i doze hq
    exact ⟨hfull, hinv.toEnds.served hopen⟩
  · rcases hreader q n doze hq with ⟨hempty, hopen⟩ | hun
    · exact Or.inl ⟨hempty, hinv.toEnds.served hopen⟩
    · refine Or.inr ⟨hun, ?_⟩
      rcases hannounced hun with ⟨t, n', i, ht⟩ | hgaveUp | hclosed
      · exact absurd (by rw [ht]; rfl) (hinv.toEnds.nobody_inside hlock t)
      · exact hgaveUp
      · have href := hinv.uses q .read (by rw [hq]; rfl)
        exact absurd ((hinv.closed .read hclosed).1 q) (Nat.pos_iff_ne_zero.mp href)
  · obtain ⟨hfull, -, hnone⟩ := hwriter r n' i doze' hr
    rcases hreader q n doze hq with ⟨hempty, -⟩ | hun
    · exact not_full_of_empty hempty hfull
    · simp [hnone] at hun

end Runs

section Example

/-- Process 0 makes a pipe and shares it with process 1, which sleeps in `piperead`. -/
theorem exists_sleeping_reader : ∃ s : State 2,
    Reachable Step (State.pipealloc (fun _ => 0) 0 fun _ => true) s ∧ s.lock = none ∧
      s.pc 0 = .idle ∧ s.pc 1 = .sleep (.read 1) .asleep ∧ s.killed 0 = true ∧
      0 < s.refs .write 0 ∧ s.pi.ring.count = 0 := by
  have hreach : Reachable Step (State.pipealloc (fun _ => 0) 0 fun _ => true : State 2) _ := .refl
  replace hreach := hreach.tail (.freeproc (p := 1) rfl (by rintro (_ | _) <;> rfl))
  replace hreach := hreach.tail (.filedup (p := 0) .read 1 rfl (by decide))
  replace hreach := hreach.tail (.piperead (p := 1) 1 rfl (by decide))
  replace hreach := hreach.tail (.acquire (p := 1) rfl rfl)
  replace hreach := hreach.tail (.readSleep (p := 1) rfl rfl rfl rfl)
  replace hreach := hreach.tail (.sleepRelease (p := 1) rfl)
  replace hreach := hreach.tail (.sleepSched (p := 1) rfl)
  exact ⟨_, hreach, rfl, rfl, rfl, rfl, by decide, rfl⟩

theorem no_lost_wakeup_reader : ∃ s : State 2,
    Reachable Step (State.pipealloc (fun _ => 0) 0 fun _ => true) s ∧
      (s.pi.Empty ∧ s.Served .write ∨ s.unannounced ∧ s.gaveUp) := by
  obtain ⟨s, hreach, hlock, -, hreader, -, -, -⟩ := exists_sleeping_reader
  exact ⟨s, hreach, (no_lost_wakeup hreach hlock).2.1 1 1 .asleep hreader⟩

/-- Process 0 writes `i` bytes while process 1 sleeps. -/
theorem exists_filling {i : ℕ} (hi : i ≤ pipesize) : ∃ s : State 2,
    Reachable Step (State.pipealloc (fun _ => 0) 0 fun _ => true) s ∧
      s.pc 0 = .writeLoop (pipesize + 1) i ∧ s.pc 1 = .sleep (.read 1) .asleep ∧
      s.killed 0 = true ∧ s.pi.ring.count = i := by
  induction i with
  | zero =>
      obtain ⟨s, hreach, hlock, hidle, hreader, hkilled, href, hcount⟩ := exists_sleeping_reader
      replace hreach := hreach.tail (.pipewrite (p := 0) (pipesize + 1) hidle href)
      have hwaits : (s.goto 0 (.acquire (.write (pipesize + 1) 0))).pc 0 =
          .acquire (.write (pipesize + 1) 0) := by
        simp [State.goto]
      replace hreach := hreach.tail (.acquire hwaits hlock)
      exact ⟨_, hreach, by simp [State.gotoLock, Frame.resume],
        by simp [State.gotoLock, State.goto, hreader], hkilled, hcount⟩
  | succ i ih =>
      obtain ⟨s, hreach, hwriter, hreader, hkilled, hcount⟩ := ih (Nat.le_of_succ_le hi)
      have hroom : ¬ s.pi.Full := by
        rw [full_iff]
        omega
      refine ⟨_, hreach.tail (.writeByte (p := 0) hwriter (by omega) hroom 0), ?_, ?_, hkilled, ?_⟩
      · simp [State.goto]
      · simpa [State.goto, State.setPipe] using hreader
      · change (s.pi.ring.push pipesize 0).count = i + 1
        rw [RingBuffer.Buffer.count_push (by decide) (PipeData.count_lt hroom), hcount]

/-- A killed process fills a pipe and leaves; the reader that waits for the bytes sleeps on,
and every other process has left the pipe alone. -/
theorem exists_forgotten_reader : ∃ s : State 2,
    Reachable Step (State.pipealloc (fun _ => 0) 0 fun _ => true) s ∧ s.lock = none ∧
      s.pc 0 = .idle ∧ s.pc 1 = .sleep (.read 1) .asleep ∧ s.pi.Full := by
  obtain ⟨s, hreach, hwriter, hreader, hkilled, hcount⟩ := exists_filling (le_refl pipesize)
  have hfull : s.pi.Full := (full_iff s.pi).mpr hcount
  refine ⟨_, hreach.tail (.writeFail (p := 0) hwriter (Nat.lt_succ_self _) hfull
    (Or.inr hkilled)), rfl, ?_, ?_, hfull⟩
  · simp [State.gotoLock]
  · simpa [State.gotoLock] using hreader

end Example

end OperateSystem.Pipe.Closing

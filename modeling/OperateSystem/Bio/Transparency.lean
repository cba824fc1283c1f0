import OperateSystem.Core.History
import OperateSystem.Bio.Identity

/-!
# The cache is transparent

This module adds to the processes of the buffer cache what `bread` and `bwrite` do with
the contents of the buffers: the data of every buffer, the disk, and the reading of a
buffer that is not valid.  The processes keep the discipline of the interface: a buffer
is modified only by a process that holds it, and a buffer whose last modification has
not been written does not lose its last reference.  Then every `bread` returns what a
plain array of blocks would hold.

`virtio_disk_rw` copies one block at once between the buffer and the disk.
-/

namespace OperateSystem.Bio

open OperateSystem.Ring
open OperateSystem.History

variable {nbuf : ℕ} {Tid : Type*} [DecidableEq Tid] {Data : Type*}

/-- Where a process stands inside `bread`, after `bget` has returned. -/
inductive Reading (nbuf : ℕ)
  | outside
  | test (b : Fin nbuf)
  | fill (b : Fin nbuf)
  | mark (b : Fin nbuf)
  | ready (b : Fin nbuf)

/-- The buffer that `bread` has got from `bget`. -/
def Reading.buffer : Reading nbuf → Option (Fin nbuf)
  | .outside => none
  | .test b | .fill b | .mark b | .ready b => some b

/-- The cache with contents.  `wanted` is the block that a process has called `bread`
for last, and `dirty` marks the buffers modified since they were last written. -/
structure Contents (nbuf : ℕ) (Tid Data : Type*) where
  calls : State nbuf Tid
  reading : Tid → Reading nbuf
  wanted : Tid → ℕ × ℕ
  data : Fin nbuf → Data
  dirty : Fin nbuf → Bool
  disk : ℕ × ℕ → Data

/-- The block that a buffer caches. -/
def Cache.block (c : Cache nbuf) (b : Fin nbuf) : ℕ × ℕ := (c.dev b, c.blockno b)

/-- `b->valid = 1`. -/
def Cache.setValid (c : Cache nbuf) (b : Fin nbuf) : Cache nbuf :=
  { c with valid := Function.update c.valid b true }

namespace Contents

@[simps]
def goto (s : Contents nbuf Tid Data) (t : Tid) (reading : Reading nbuf) :
    Contents nbuf Tid Data :=
  { s with reading := Function.update s.reading t reading }

/-- The state of the calls changes; a process that looks for a block wants that block. -/
@[simps]
def withCalls (s : Contents nbuf Tid Data) (calls : State nbuf Tid) : Contents nbuf Tid Data :=
  { s with calls := calls, wanted := fun t => (calls.pc t).target.getD (s.wanted t) }

/-- `b->data` is changed to `value` in memory. -/
@[simps]
def store (s : Contents nbuf Tid Data) (b : Fin nbuf) (value : Data) (dirty : Bool) :
    Contents nbuf Tid Data :=
  { s with
    data := Function.update s.data b value
    dirty := Function.update s.dirty b dirty }

/-- `bget` returns buffer `b`: the sleep lock is taken. -/
@[simps]
def take (s : Contents nbuf Tid Data) (t : Tid) (b : Fin nbuf) : Contents nbuf Tid Data :=
  { s with calls := (s.calls.setSleepLock b (some t)).goto t .idle }

/-- `b->valid = 1`. -/
@[simps]
def setValid (s : Contents nbuf Tid Data) (b : Fin nbuf) : Contents nbuf Tid Data :=
  { s with calls := s.calls.withCache (s.calls.cache.setValid b) }

/-- `virtio_disk_rw(b, 1)`. -/
@[simps]
def writeOut (s : Contents nbuf Tid Data) (b : Fin nbuf) : Contents nbuf Tid Data :=
  { s with
    disk := Function.update s.disk (s.calls.cache.block b) (s.data b)
    dirty := Function.update s.dirty b false }

/-- After `binit`: nothing is read, nothing is valid, the buffers hold anything. -/
@[simps]
def boot (garbage : Links (Node nbuf)) (wanted : Tid → ℕ × ℕ) (data : Fin nbuf → Data)
    (disk : ℕ × ℕ → Data) : Contents nbuf Tid Data :=
  ⟨State.boot (binit garbage), fun _ => .outside, wanted, data, fun _ => false, disk⟩

end Contents

/-- A process that stands between two calls and holds buffer `b`. -/
def Contents.Uses (s : Contents nbuf Tid Data) (t : Tid) (b : Fin nbuf) : Prop :=
  s.calls.pc t = .idle ∧ s.reading t = .outside ∧ s.calls.sleepLock b = some t

/-- One step.  The event of a step is a modification of a block or a return of
`bread`. -/
inductive Access : Contents nbuf Tid Data → Option (Event (ℕ × ℕ) Data) →
    Contents nbuf Tid Data → Prop
  /-- A step of `bget`, `brelse`, `bpin` or `bunpin` other than the last one of `bget`.
  Processes inside `bread` make no calls, and a buffer that loses its last reference has
  been written since its last modification. -/
  | call {s calls} (hstep : Step s.calls calls)
      (hsleep : ∀ b t, calls.sleepLock b = some t → s.calls.sleepLock b = some t)
      (hinside : ∀ t, s.reading t ≠ .outside → calls.pc t = s.calls.pc t)
      (hclean : ∀ b, 0 < s.calls.cache.refcnt b → calls.cache.refcnt b = 0 → s.dirty b = false) :
      Access s none (s.withCalls calls)
  /-- `bget` returns to `bread`. -/
  | bgetReturn {s t b} (hpc : s.calls.pc t = .bgetSleep b) (hfree : s.calls.sleepLock b = none) :
      Access s none ((s.take t b).goto t (.test b))
  | testValid {s t b} (hreading : s.reading t = .test b) (hvalid : s.calls.cache.valid b = true) :
      Access s none (s.goto t (.ready b))
  | testInvalid {s t b} (hreading : s.reading t = .test b)
      (hvalid : s.calls.cache.valid b = false) : Access s none (s.goto t (.fill b))
  /-- `virtio_disk_rw(b, 0)`. -/
  | fill {s t b} (hreading : s.reading t = .fill b) :
      Access s none ((s.store b (s.disk (s.calls.cache.block b)) (s.dirty b)).goto t (.mark b))
  | mark {s t b} (hreading : s.reading t = .mark b) :
      Access s none ((s.setValid b).goto t (.ready b))
  | breadReturn {s t b} (hreading : s.reading t = .ready b) :
      Access s (some (.read (s.wanted t) (s.data b))) (s.goto t .outside)
  | modify {s t b} (value : Data) (huses : s.Uses t b) :
      Access s (some (.modify (s.calls.cache.block b) value)) (s.store b value true)
  | bwrite {s t b} (huses : s.Uses t b) : Access s none (s.writeOut b)

/-! ## What the calls do to a buffer -/

section Calls

variable {s s' : State nbuf Tid}

/-- A process keeps a buffer as long as it makes no call. -/
theorem Step.sleepLock_of_pc_eq (hstep : Step s s') {t : Tid} {b : Fin nbuf}
    (hheld : s.sleepLock b = some t) (hpc : s'.pc t = s.pc t) : s'.sleepLock b = some t := by
  cases hstep with
  | @bgetSleep u b' hpc' hfree =>
      have hne : b ≠ b' := by
        rintro rfl
        rw [hfree] at hheld
        cases hheld
      simpa [hne] using hheld
  | @brelseCall u b' hpc' hholding =>
      have hne : b ≠ b' := by
        rintro rfl
        obtain rfl := Option.some.inj (hholding.symm.trans hheld)
        simp [hpc'] at hpc
      simpa [hne] using hheld
  | _ => exact hheld

variable [Fintype Tid]

omit [DecidableEq Tid] in
theorem Inv.pos_of_held (h : Inv s) {t : Tid} {b : Fin nbuf} (hheld : s.sleepLock b = some t) :
    0 < s.cache.refcnt b := by
  by_contra hzero
  have hnone := (h.2.1.of_zero (Nat.eq_zero_of_not_pos hzero)).1
  rw [hheld] at hnone
  cases hnone

/-- A step changes the block of a buffer, or whether it is valid, only by assigning it
anew. -/
theorem Inv.block_valid (h : Inv s) (hstep : Step s s') (b : Fin nbuf) :
    (s'.cache.block b = s.cache.block b ∧ s'.cache.valid b = s.cache.valid b) ∨
      (s.cache.refcnt b = 0 ∧ s'.cache.valid b = false) := by
  obtain ⟨-, -, ring, hid⟩ := h
  have hassign : ∀ {b' : Fin nbuf} {dev blockno : ℕ}, s.cache.refcnt b' = 0 →
      ((s.cache.assign b' dev blockno).block b = s.cache.block b ∧
        (s.cache.assign b' dev blockno).valid b = s.cache.valid b) ∨
        (s.cache.refcnt b = 0 ∧ (s.cache.assign b' dev blockno).valid b = false) := by
    intro b' dev blockno hzero
    by_cases hb : b = b'
    · subst hb
      exact Or.inr ⟨hzero, by simp [Cache.assign]⟩
    · exact Or.inl (by simp [Cache.assign, Cache.block, hb])
  cases hstep with
  | bgetFound hpc hbody =>
      rcases bgetHome_cases hid.cache.rings hbody with
        ⟨b', -, -, -, -, rfl⟩ | ⟨-, ⟨b', -, hzero, -, rfl⟩ | ⟨-, rfl⟩⟩
      · exact Or.inl ⟨rfl, rfl⟩
      · exact hassign hzero
      · exact Or.inl ⟨rfl, rfl⟩
  | bgetMiss hpc hbody =>
      rcases bgetHome_cases hid.cache.rings hbody with
        ⟨b', -, -, -, -, rfl⟩ | ⟨-, ⟨b', -, hzero, -, rfl⟩ | ⟨-, rfl⟩⟩
      · exact Or.inl ⟨rfl, rfl⟩
      · exact hassign hzero
      · exact Or.inl ⟨rfl, rfl⟩
  | stealFound hpc hbody =>
      rcases bgetSteal_cases hid.cache.rings hbody with ⟨b', -, hzero, -, rfl⟩ | ⟨-, rfl⟩
      · exact hassign hzero
      · exact Or.inl ⟨rfl, rfl⟩
  | stealMiss hpc hbody =>
      rcases bgetSteal_cases hid.cache.rings hbody with ⟨b', -, hzero, -, rfl⟩ | ⟨-, rfl⟩
      · exact hassign hzero
      · exact Or.inl ⟨rfl, rfl⟩
  | brelseBody hpc =>
      simp only [Cache.brelse]
      split <;> exact Or.inl ⟨rfl, rfl⟩
  | _ => exact Or.inl ⟨rfl, rfl⟩

/-- A referenced buffer keeps its block and stays valid. -/
theorem Inv.keeps (h : Inv s) (hstep : Step s s') {b : Fin nbuf} (hpos : 0 < s.cache.refcnt b) :
    s'.cache.block b = s.cache.block b ∧ s'.cache.valid b = s.cache.valid b :=
  (h.block_valid hstep b).resolve_right fun hzero => by omega

omit [Fintype Tid] in
theorem update_waitsFor {t u : Tid} {pc : Pc nbuf} {b : Fin nbuf} {block : ℕ × ℕ}
    (hnew : pc.waitsFor = some b →
      (s.pc u).waitsFor = some b ∨ (s.pc u).target = some block)
    (hwaits : (Function.update s.pc u pc t).waitsFor = some b) :
    (s.pc t).waitsFor = some b ∨ (s.pc t).target = some block := by
  by_cases ht : t = u
  · subst ht
    rw [Function.update_self] at hwaits
    exact hnew hwaits
  · rw [Function.update_of_ne ht] at hwaits
    exact Or.inl hwaits

/-- A process that begins to wait for a buffer was looking for the block of it. -/
theorem Inv.waitsFor (h : Inv s) (hstep : Step s s') {t : Tid} {b : Fin nbuf}
    (hwaits : (s'.pc t).waitsFor = some b) :
    (s.pc t).waitsFor = some b ∨ (s.pc t).target = some (s'.cache.block b) := by
  obtain ⟨-, -, ring, hid⟩ := h
  cases hstep with
  | @bgetFound u dev blockno b' cache hpc hbody =>
      refine update_waitsFor ?_ hwaits
      intro heq
      obtain rfl := Option.some.inj heq
      refine Or.inr ?_
      rw [hpc]
      rcases bgetHome_cases hid.cache.rings hbody with
        ⟨b'', -, hdev, hblockno, heq, rfl⟩ | ⟨-, ⟨b'', -, -, heq, rfl⟩ | ⟨heq, -⟩⟩
      · obtain rfl := Option.some.inj heq
        simp [Pc.target, Cache.block, Cache.incr, hdev, hblockno]
      · obtain rfl := Option.some.inj heq
        simp [Pc.target, Cache.block, Cache.assign]
      · cases heq
  | @stealFound u dev blockno findCount b' cache hpc hbody =>
      refine update_waitsFor ?_ hwaits
      intro heq
      obtain rfl := Option.some.inj heq
      refine Or.inr ?_
      rw [hpc]
      rcases bgetSteal_cases hid.cache.rings hbody with ⟨b'', -, -, heq, rfl⟩ | ⟨heq, -⟩
      · obtain rfl := Option.some.inj heq
        simp [Pc.target, Cache.block, Cache.assign]
      · cases heq
  | stolen hpc => exact update_waitsFor (fun heq => Or.inl (by rw [hpc]; exact heq)) hwaits
  | bgetRelease hpc => exact update_waitsFor (fun heq => Or.inl (by rw [hpc]; exact heq)) hwaits
  | _ => exact update_waitsFor (by simp [Pc.waitsFor]) hwaits

omit [DecidableEq Tid] in
/-- The invariant of the calls does not depend on the valid flags. -/
theorem Inv.setValid (h : Inv s) (b : Fin nbuf) : Inv (s.withCache (s.cache.setValid b)) := by
  obtain ⟨hlocks, hrefs, ring, hid⟩ := h
  exact ⟨hlocks.withCache _, hrefs, ring, hid.withCache rfl rfl rfl⟩

end Calls

/-! ## The invariant -/

/-- The cache and the disk together hold `array`: a valid buffer holds the current
contents of its block, and so does the disk unless a buffer is dirty. -/
structure Coherent [Fintype Tid] (array : ℕ × ℕ → Data) (s : Contents nbuf Tid Data) :
    Prop where
  inv : Inv s.calls
  cached : ∀ b, s.calls.cache.valid b = true → s.data b = array (s.calls.cache.block b)
  clean : ∀ block, (∀ b, s.dirty b = true → s.calls.cache.block b ≠ block) →
    s.disk block = array block
  dirty : ∀ b, s.dirty b = true → s.calls.cache.valid b = true ∧ 0 < s.calls.cache.refcnt b
  holding : ∀ t b, (s.reading t).buffer = some b →
    s.calls.pc t = .idle ∧ s.calls.sleepLock b = some t ∧ s.wanted t = s.calls.cache.block b
  filling : ∀ t b, s.reading t = .fill b → s.calls.cache.valid b = false
  filled : ∀ t b, s.reading t = .mark b → s.data b = array (s.calls.cache.block b)
  ready : ∀ t b, s.reading t = .ready b → s.calls.cache.valid b = true
  held : ∀ t b, s.calls.sleepLock b = some t → (s.reading t).buffer ≠ some b →
    s.calls.cache.valid b = true
  target : ∀ t block, (s.calls.pc t).target = some block → s.wanted t = block
  waits : ∀ t b, (s.calls.pc t).waitsFor = some b → s.wanted t = s.calls.cache.block b

section Preservation

variable [Fintype Tid] {array : ℕ × ℕ → Data} {s : Contents nbuf Tid Data}

theorem Pc.target_of_waitsFor {pc : Pc nbuf} {b : Fin nbuf} (h : pc.waitsFor = some b) :
    pc.target = none := by
  cases pc <;> simp_all [Pc.waitsFor, Pc.target]

theorem Pc.refs_of_waitsFor {pc : Pc nbuf} {b : Fin nbuf} (h : pc.waitsFor = some b) :
    pc.refs b = 1 := by
  cases pc <;> simp_all [Pc.waitsFor, Pc.refs, Pc.refOf]

omit [DecidableEq Tid] in
theorem Coherent.boot (garbage : Links (Node nbuf)) (wanted : Tid → ℕ × ℕ)
    (data : Fin nbuf → Data) (disk : ℕ × ℕ → Data) :
    Coherent disk (Contents.boot garbage wanted data disk : Contents nbuf Tid Data) where
  inv := inv_boot garbage
  cached := by simp [binit]
  clean := by simp
  dirty := by simp
  holding := by simp [Reading.buffer]
  filling := by simp
  filled := by simp
  ready := by simp
  held := by simp
  target := by simp [Pc.target]
  waits := by simp [Pc.waitsFor]

omit [DecidableEq Tid] in
/-- No other buffer caches the block of a buffer that is held. -/
theorem Coherent.block_ne (h : Coherent array s) {t : Tid} {b b' : Fin nbuf}
    (hheld : s.calls.sleepLock b = some t) (hne : b' ≠ b) :
    s.calls.cache.block b' ≠ s.calls.cache.block b := by
  obtain ⟨-, -, ring, hid⟩ := h.inv
  intro heq
  obtain ⟨hdev, hblockno⟩ := Prod.mk.inj heq
  have hdevice := hid.held b (by simp [hheld])
  exact hne (hid.cache.unique b' b (by rwa [hdev]) hdev hblockno)

theorem Coherent.call (h : Coherent array s) {calls : State nbuf Tid}
    (hstep : Step s.calls calls)
    (hsleep : ∀ b t, calls.sleepLock b = some t → s.calls.sleepLock b = some t)
    (hinside : ∀ t, s.reading t ≠ .outside → calls.pc t = s.calls.pc t)
    (hclean : ∀ b, 0 < s.calls.cache.refcnt b → calls.cache.refcnt b = 0 → s.dirty b = false) :
    Coherent array (s.withCalls calls) := by
  have hkeeps : ∀ b, 0 < s.calls.cache.refcnt b →
      calls.cache.block b = s.calls.cache.block b ∧
        calls.cache.valid b = s.calls.cache.valid b := fun b => h.inv.keeps hstep
  have hreading : ∀ t b, (s.reading t).buffer = some b → 0 < s.calls.cache.refcnt b :=
    fun t b hb => h.inv.pos_of_held (h.holding t b hb).2.1
  refine ⟨h.inv.step hstep, ?_, ?_, ?_, ?_, ?_, ?_, ?_, ?_, ?_, ?_⟩
  · intro b hvalid
    rcases h.inv.block_valid hstep b with ⟨hblock, hsame⟩ | ⟨-, hinvalid⟩
    · simpa [hblock] using h.cached b (hsame.symm.trans hvalid)
    · exact absurd (hvalid.symm.trans hinvalid) (by simp)
  · intro block hnone
    refine h.clean block fun b hdirty => ?_
    have hsame := (hkeeps b (h.dirty b hdirty).2).1
    simpa [hsame] using hnone b hdirty
  · intro b hdirty
    obtain ⟨hvalid, hpos⟩ := h.dirty b hdirty
    refine ⟨(hkeeps b hpos).2.trans hvalid, Nat.pos_of_ne_zero fun hzero => ?_⟩
    exact absurd (hdirty.symm.trans (hclean b hpos hzero)) (by simp)
  · intro t b hb
    obtain ⟨hidle, hheld, hwanted⟩ := h.holding t b hb
    have hpc := hinside t (by rintro heq; simp [Contents.withCalls, heq, Reading.buffer] at hb)
    refine ⟨hpc.trans hidle, hstep.sleepLock_of_pc_eq hheld hpc, ?_⟩
    simp [hpc, hidle, Pc.target, hwanted, (hkeeps b (hreading t b hb)).1]
  · intro t b hfill
    exact (hkeeps b (hreading t b (congrArg Reading.buffer hfill))).2.trans (h.filling t b hfill)
  · intro t b hmark
    simpa [(hkeeps b (hreading t b (congrArg Reading.buffer hmark))).1] using h.filled t b hmark
  · intro t b hready
    exact (hkeeps b (hreading t b (congrArg Reading.buffer hready))).2.trans (h.ready t b hready)
  · intro t b hheld hbuffer
    have hheld' := hsleep b t hheld
    exact (hkeeps b (h.inv.pos_of_held hheld')).2.trans (h.held t b hheld' hbuffer)
  · intro t block htarget
    simp only [Contents.withCalls_calls] at htarget
    simp [htarget]
  · intro t b hwaits
    simp only [Contents.withCalls_calls] at hwaits
    simp only [Contents.withCalls_wanted, Pc.target_of_waitsFor hwaits, Option.getD_none,
      Contents.withCalls_calls]
    rcases h.inv.waitsFor hstep hwaits with hold | htarget
    · have hpos : 0 < s.calls.cache.refcnt b := by
        exact h.inv.2.1.pos_of_refs (t := t) (Pc.refs_of_waitsFor hold)
      rw [(hkeeps b hpos).1]
      exact h.waits t b hold
    · exact h.target t _ htarget

/-- A process moves on inside `bread`. -/
theorem Coherent.goto (h : Coherent array s) {t : Tid} {reading : Reading nbuf}
    (hbuffer : ∀ b, reading.buffer = some b → (s.reading t).buffer = some b)
    (hfill : ∀ b, reading = .fill b → s.calls.cache.valid b = false)
    (hmark : ∀ b, reading = .mark b → s.data b = array (s.calls.cache.block b))
    (hready : ∀ b, reading = .ready b → s.calls.cache.valid b = true)
    (hheld : ∀ b, s.calls.sleepLock b = some t → (s.reading t).buffer = some b →
      reading.buffer ≠ some b → s.calls.cache.valid b = true) :
    Coherent array (s.goto t reading) := by
  refine ⟨h.inv, h.cached, h.clean, h.dirty, ?_, ?_, ?_, ?_, ?_, h.target, h.waits⟩ <;>
    intro u b <;> simp only [Contents.goto_reading, Contents.goto_calls, Contents.goto_wanted,
      Contents.goto_data]
  all_goals by_cases hu : u = t
  · subst hu
    simpa using fun hb => h.holding u b (hbuffer b hb)
  · simpa [hu] using h.holding u b
  · subst hu
    simpa using hfill b
  · simpa [hu] using h.filling u b
  · subst hu
    simpa using hmark b
  · simpa [hu] using h.filled u b
  · subst hu
    simpa using hready b
  · simpa [hu] using h.ready u b
  · subst hu
    rw [Function.update_self]
    intro hlock hnot
    by_cases hb : (s.reading u).buffer = some b
    · exact hheld b hlock hb hnot
    · exact h.held u b hlock hb
  · simpa [hu] using h.held u b

/-- `bget` returns the buffer that it has been waiting for. -/
theorem Coherent.bgetReturn (h : Coherent array s) {t : Tid} {b : Fin nbuf}
    (hpc : s.calls.pc t = .bgetSleep b) (hfree : s.calls.sleepLock b = none) :
    Coherent array ((s.take t b).goto t (.test b)) := by
  have houtside : ∀ b', (s.reading t).buffer ≠ some b' := by
    intro b' hb'
    have hidle := (h.holding t b' hb').1
    rw [hpc] at hidle
    cases hidle
  have hother : ∀ u b', s.calls.sleepLock b' = some u → b' ≠ b := by
    rintro u b' hlock rfl
    rw [hfree] at hlock
    cases hlock
  refine ⟨h.inv.step (.bgetSleep hpc hfree), h.cached, h.clean, h.dirty, ?_, ?_, ?_, ?_, ?_,
    ?_, ?_⟩ <;> intro u
  all_goals by_cases hu : u = t
  · subst hu
    intro b' hb'
    simp only [Contents.goto_reading, Function.update_self, Reading.buffer,
      Option.some.injEq] at hb'
    subst hb'
    exact ⟨by simp, by simp, h.waits u b (by rw [hpc]; rfl)⟩
  · intro b' hb'
    obtain ⟨hidle, hlock, hwanted⟩ := h.holding u b' (by simpa [hu] using hb')
    exact ⟨by simpa [hu] using hidle, by simpa [hother u b' hlock] using hlock, hwanted⟩
  · simp [hu]
  · simpa [hu] using h.filling u
  · simp [hu]
  · simpa [hu] using h.filled u
  · simp [hu]
  · simpa [hu] using h.ready u
  · subst hu
    intro b' hlock hnot
    have hne : b' ≠ b := by
      rintro rfl
      simp [Reading.buffer] at hnot
    exact h.held u b' (by simpa [hne] using hlock) (houtside b')
  · intro b' hlock hnot
    have hne : b' ≠ b := by
      rintro rfl
      simp [Ne.symm hu] at hlock
    exact h.held u b' (by simpa [hne] using hlock) (by simpa [hu] using hnot)
  · simp [hu, Pc.target]
  · simpa [hu] using h.target u
  · simp [hu, Pc.waitsFor]
  · simpa [hu] using h.waits u

omit [DecidableEq Tid] in
/-- A process that holds buffer `b` changes its data. -/
theorem Coherent.store (h : Coherent array s) {t : Tid} {b : Fin nbuf}
    (hheld : s.calls.sleepLock b = some t) {value : Data} {dirty : Bool}
    {array' : ℕ × ℕ → Data}
    (hrest : ∀ block, block ≠ s.calls.cache.block b → array' block = array block)
    (hvalid : s.calls.cache.valid b = true → value = array' (s.calls.cache.block b))
    (hdirty : dirty = true → s.calls.cache.valid b = true)
    (hclean : dirty = false →
      s.disk (s.calls.cache.block b) = array' (s.calls.cache.block b))
    (hmark : s.reading t = .mark b → value = array' (s.calls.cache.block b)) :
    Coherent array' (s.store b value dirty) := by
  have hsame : ∀ b', b' ≠ b →
      array' (s.calls.cache.block b') = array (s.calls.cache.block b') :=
    fun b' hne => hrest _ (h.block_ne hheld hne)
  refine ⟨h.inv, ?_, ?_, ?_, h.holding, h.filling, ?_, h.ready, h.held, h.target, h.waits⟩
  · intro b' hb'
    by_cases hne : b' = b
    · subst hne
      simpa using hvalid hb'
    · simpa [hne, hsame b' hne] using h.cached b' hb'
  · intro block hnone
    by_cases hblock : block = s.calls.cache.block b
    · subst hblock
      refine hclean ?_
      cases dirty with
      | false => rfl
      | true => exact absurd rfl (hnone b (by simp))
    · rw [hrest block hblock]
      refine h.clean block fun b' hb' => ?_
      by_cases hne : b' = b
      · exact hne ▸ Ne.symm hblock
      · exact hnone b' (by simpa [hne] using hb')
  · intro b' hb'
    by_cases hne : b' = b
    · subst hne
      exact ⟨hdirty (by simpa using hb'), h.inv.pos_of_held hheld⟩
    · exact h.dirty b' (by simpa [hne] using hb')
  · intro u b' hu
    by_cases hne : b' = b
    · subst hne
      have hlock := (h.holding u b' (congrArg Reading.buffer hu)).2.1
      obtain rfl := Option.some.inj (hlock.symm.trans hheld)
      simpa using hmark hu
    · simpa [hne, hsame b' hne] using h.filled u b' hu

omit [DecidableEq Tid] in
/-- The disk holds the current contents of a block whose buffer is not valid. -/
theorem Coherent.disk_of_invalid (h : Coherent array s) {t : Tid} {b : Fin nbuf}
    (hheld : s.calls.sleepLock b = some t) (hvalid : s.calls.cache.valid b = false) :
    s.disk (s.calls.cache.block b) = array (s.calls.cache.block b) := by
  refine h.clean _ fun b' hb' => ?_
  by_cases hne : b' = b
  · subst hne
    rw [(h.dirty b' hb').1] at hvalid
    cases hvalid
  · exact h.block_ne hheld hne

omit [DecidableEq Tid] in
theorem Coherent.setValid (h : Coherent array s) {t : Tid} {b : Fin nbuf}
    (hreading : s.reading t = .mark b) : Coherent array (s.setValid b) := by
  have hheld := (h.holding t b (congrArg Reading.buffer hreading)).2.1
  have hkeep : ∀ b', s.calls.cache.valid b' = true →
      (s.setValid b).calls.cache.valid b' = true := by
    intro b' hb'
    by_cases hne : b' = b
    · simp [Cache.setValid, hne]
    · simpa [Cache.setValid, hne] using hb'
  refine ⟨h.inv.setValid b, ?_, h.clean, fun b' hb' => ⟨hkeep b' (h.dirty b' hb').1, ?_⟩,
    h.holding, ?_, h.filled, fun u b' hb' => hkeep b' (h.ready u b' hb'),
    fun u b' hlock hb' => hkeep b' (h.held u b' hlock hb'), h.target, h.waits⟩
  · intro b' hb'
    by_cases hne : b' = b
    · subst hne
      exact h.filled t b' hreading
    · exact h.cached b' (by simpa [Cache.setValid, hne] using hb')
  · exact (h.dirty b' hb').2
  · intro u b' hb'
    have hne : b' ≠ b := by
      rintro rfl
      have hlock := (h.holding u b' (congrArg Reading.buffer hb')).2.1
      obtain rfl := Option.some.inj (hlock.symm.trans hheld)
      rw [Contents.setValid_reading, hreading] at hb'
      cases hb'
    simpa [Cache.setValid, hne] using h.filling u b' hb'

omit [DecidableEq Tid] in
/-- `bwrite` of a buffer that a process holds. -/
theorem Coherent.writeOut (h : Coherent array s) {b : Fin nbuf}
    (hvalid : s.calls.cache.valid b = true) : Coherent array (s.writeOut b) := by
  refine ⟨h.inv, h.cached, ?_, ?_, h.holding, h.filling, h.filled, h.ready, h.held, h.target,
    h.waits⟩
  · intro block hnone
    by_cases hblock : block = s.calls.cache.block b
    · subst hblock
      simpa using h.cached b hvalid
    · simp only [Contents.writeOut_disk, Function.update_of_ne hblock]
      refine h.clean block fun b' hb' => ?_
      by_cases hne : b' = b
      · exact hne ▸ Ne.symm hblock
      · exact hnone b' (by simpa [hne] using hb')
  · intro b' hb'
    by_cases hne : b' = b
    · simp [hne] at hb'
    · exact h.dirty b' (by simpa [hne] using hb')

omit [DecidableEq Tid] in
theorem Coherent.uses (h : Coherent array s) {t : Tid} {b : Fin nbuf} (huses : s.Uses t b) :
    s.calls.cache.valid b = true :=
  h.held t b huses.2.2 (by simp [huses.2.1, Reading.buffer])

/-! ## Transparency -/

/-- A process moves on inside `bread` with the same buffer. -/
theorem Coherent.advance (h : Coherent array s) {t : Tid} {reading : Reading nbuf}
    (hbuffer : reading.buffer = (s.reading t).buffer)
    (hfill : ∀ b, reading = .fill b → s.calls.cache.valid b = false)
    (hmark : ∀ b, reading = .mark b → s.data b = array (s.calls.cache.block b))
    (hready : ∀ b, reading = .ready b → s.calls.cache.valid b = true) :
    Coherent array (s.goto t reading) := by
  refine h.goto (fun b hb => hbuffer ▸ hb) hfill hmark hready ?_
  intro b _ hb hnot
  exact absurd (hbuffer.trans hb) hnot

theorem Coherent.silent (h : Coherent array s) {s' : Contents nbuf Tid Data}
    (hstep : Access s none s') : Coherent array s' := by
  cases hstep with
  | call hstep hsleep hinside hclean => exact h.call hstep hsleep hinside hclean
  | bgetReturn hpc hfree => exact h.bgetReturn hpc hfree
  | @testValid t b hreading hvalid =>
      refine h.advance (by rw [hreading]; rfl) (by simp) (by simp) ?_
      rintro b' heq
      obtain rfl := Reading.ready.inj heq
      exact hvalid
  | @testInvalid t b hreading hvalid =>
      refine h.advance (by rw [hreading]; rfl) ?_ (by simp) (by simp)
      rintro b' heq
      obtain rfl := Reading.fill.inj heq
      exact hvalid
  | @fill t b hreading =>
      have hheld := (h.holding t b (congrArg Reading.buffer hreading)).2.1
      have hdisk := h.disk_of_invalid hheld (h.filling t b hreading)
      have hstored : Coherent array (s.store b (s.disk (s.calls.cache.block b)) (s.dirty b)) :=
        h.store hheld (fun _ _ => rfl) (fun _ => hdisk) (fun hdirty => (h.dirty b hdirty).1)
          (fun _ => hdisk) (fun _ => hdisk)
      refine hstored.advance (by rw [Contents.store_reading, hreading]; rfl) (by simp) ?_ (by simp)
      rintro b' heq
      obtain rfl := Reading.mark.inj heq
      simpa using hdisk
  | @mark t b hreading =>
      refine (h.setValid hreading).advance (by rw [Contents.setValid_reading, hreading]; rfl)
        (by simp) (by simp) ?_
      rintro b' heq
      obtain rfl := Reading.ready.inj heq
      simp [Cache.setValid]
  | bwrite huses => exact h.writeOut (h.uses huses)

theorem Coherent.modified (h : Coherent array s) {s' : Contents nbuf Tid Data} {block : ℕ × ℕ}
    {value : Data} (hstep : Access s (some (.modify block value)) s') :
    Coherent (Function.update array block value) s' := by
  cases hstep with
  | @modify t b value huses =>
      refine h.store huses.2.2 (fun block hne => Function.update_of_ne hne _ _)
        (fun _ => by simp) (fun _ => h.uses huses) (by simp) ?_
      intro hmark
      rw [huses.2.1] at hmark
      cases hmark

theorem Coherent.returned (h : Coherent array s) {s' : Contents nbuf Tid Data} {block : ℕ × ℕ}
    {value : Data} (hstep : Access s (some (.read block value)) s') :
    value = array block ∧ Coherent array s' := by
  cases hstep with
  | @breadReturn t b hreading =>
      have hvalid := h.ready t b hreading
      have hholding := h.holding t b (congrArg Reading.buffer hreading)
      refine ⟨by rw [hholding.2.2, h.cached b hvalid], ?_⟩
      refine h.goto (by simp [Reading.buffer]) (by simp) (by simp) (by simp) ?_
      intro b' _ hb' _
      rw [hreading] at hb'
      obtain rfl := Option.some.inj hb'
      exact hvalid

end Preservation

/-- **The buffer cache is transparent.**  In every run of processes that keep the
discipline of the interface, every `bread` returns a buffer with the value of the latest
modification of the block it was called for, by any process, or with the initial contents
of that block on the disk if there was none. -/
theorem bread_transparent [Fintype Tid] {garbage : Links (Node nbuf)} {wanted : Tid → ℕ × ℕ}
    {data : Fin nbuf → Data} {disk : ℕ × ℕ → Data} {events : List (Event (ℕ × ℕ) Data)}
    {s : Contents nbuf Tid Data}
    (hrun : Run Access (Contents.boot garbage wanted data disk) events s) :
    Legal disk events :=
  (Run.legal Coherent (Coherent.boot garbage wanted data disk)
    (fun _ _ _ h hstep => h.silent hstep) (fun _ _ _ _ _ h hstep => h.modified hstep)
    (fun _ _ _ _ _ h hstep => h.returned hstep) hrun).1

/-- A step of a call while nobody is inside `bread` and no buffer is dirty. -/
theorem Access.quiet {s : Contents nbuf Tid Data} {calls : State nbuf Tid}
    (hstep : Step s.calls calls) (houtside : ∀ t, s.reading t = .outside)
    (hclean : ∀ b, s.dirty b = false)
    (hsleep : ∀ b t, calls.sleepLock b = some t → s.calls.sleepLock b = some t) :
    Access s none (s.withCalls calls) :=
  .call hstep hsleep (fun t ht => absurd (houtside t) ht) fun b _ _ => hclean b

/-- Block 0 is modified and written, its buffer is used for block 13, and then block 0 is read
again. -/
theorem bread_transparent_recycled : ∃ s : Contents 1 (Fin 2) ℕ,
    Run Access (Contents.boot ⟨id, id⟩ (fun _ => (0, 0)) (fun _ => 9) fun _ => 3)
      [.read (1, 0) 5, .read (1, 13) 3, .modify (1, 0) 5, .read (1, 0) 3] s ∧
      Legal (fun _ => 3)
        [Event.read (1, 0) 5, .read (1, 13) 3, .modify (1, 0) 5, .read (1, 0) 3] := by
  have hrun : Run Access (Contents.boot ⟨id, id⟩ (fun _ => (0, 0)) (fun _ => 9) (fun _ => 3)) []
    (Contents.boot ⟨id, id⟩ (fun _ => (0, 0)) (fun _ => 9) fun _ => 3 :
      Contents 1 (Fin 2) ℕ) := .refl
  -- Process 0 reads block 0, modifies it and writes it.
  replace hrun := hrun.tail (.quiet (.bgetCall (t := 0) 1 0 rfl (by decide))
    (Fin.forall_fin_two.mpr ⟨rfl, rfl⟩) (Fin.forall_fin_one.mpr rfl) fun _ _ h => h)
  replace hrun := hrun.tail (.quiet (.bgetAcquire (t := 0) rfl rfl)
    (Fin.forall_fin_two.mpr ⟨rfl, rfl⟩) (Fin.forall_fin_one.mpr rfl) fun _ _ h => h)
  replace hrun := hrun.tail (.quiet (.bgetFound (t := 0) (b := 0) rfl rfl)
    (Fin.forall_fin_two.mpr ⟨rfl, rfl⟩) (Fin.forall_fin_one.mpr rfl) fun _ _ h => h)
  replace hrun := hrun.tail (.quiet (.bgetRelease (t := 0) rfl)
    (Fin.forall_fin_two.mpr ⟨rfl, rfl⟩) (Fin.forall_fin_one.mpr rfl) fun _ _ h => h)
  replace hrun := hrun.tail (.bgetReturn (t := 0) rfl rfl)
  replace hrun := hrun.tail (.testInvalid (t := 0) rfl rfl)
  replace hrun := hrun.tail (.fill (t := 0) rfl)
  replace hrun := hrun.tail (.mark (t := 0) rfl)
  replace hrun := hrun.tail (.breadReturn (t := 0) rfl)
  replace hrun := hrun.tail (.modify (t := 0) (b := 0) 5 ⟨rfl, rfl, rfl⟩)
  replace hrun := hrun.tail (.bwrite (t := 0) (b := 0) ⟨rfl, rfl, rfl⟩)
  replace hrun := hrun.tail (.quiet (.brelseCall (t := 0) (b := 0) rfl rfl)
    (Fin.forall_fin_two.mpr ⟨rfl, rfl⟩) (Fin.forall_fin_one.mpr rfl) (by simp [Fin.forall_fin_one]))
  replace hrun := hrun.tail (.quiet (.brelseAcquire (t := 0) (b := 0) rfl rfl)
    (Fin.forall_fin_two.mpr ⟨rfl, rfl⟩) (Fin.forall_fin_one.mpr rfl) fun _ _ h => h)
  replace hrun := hrun.tail (.quiet (.brelseBody (t := 0) (b := 0) rfl)
    (Fin.forall_fin_two.mpr ⟨rfl, rfl⟩) (Fin.forall_fin_one.mpr rfl) fun _ _ h => h)
  replace hrun := hrun.tail (.quiet (.release (t := 0) rfl)
    (Fin.forall_fin_two.mpr ⟨rfl, rfl⟩) (Fin.forall_fin_one.mpr rfl) fun _ _ h => h)
  -- Process 1 reads block 13 into the buffer.
  replace hrun := hrun.tail (.quiet (.bgetCall (t := 1) 1 13 rfl (by decide))
    (Fin.forall_fin_two.mpr ⟨rfl, rfl⟩) (Fin.forall_fin_one.mpr rfl) fun _ _ h => h)
  replace hrun := hrun.tail (.quiet (.bgetAcquire (t := 1) rfl rfl)
    (Fin.forall_fin_two.mpr ⟨rfl, rfl⟩) (Fin.forall_fin_one.mpr rfl) fun _ _ h => h)
  replace hrun := hrun.tail (.quiet (.bgetFound (t := 1) (b := 0) rfl rfl)
    (Fin.forall_fin_two.mpr ⟨rfl, rfl⟩) (Fin.forall_fin_one.mpr rfl) fun _ _ h => h)
  replace hrun := hrun.tail (.quiet (.bgetRelease (t := 1) rfl)
    (Fin.forall_fin_two.mpr ⟨rfl, rfl⟩) (Fin.forall_fin_one.mpr rfl) fun _ _ h => h)
  replace hrun := hrun.tail (.bgetReturn (t := 1) rfl rfl)
  replace hrun := hrun.tail (.testInvalid (t := 1) rfl rfl)
  replace hrun := hrun.tail (.fill (t := 1) rfl)
  replace hrun := hrun.tail (.mark (t := 1) rfl)
  replace hrun := hrun.tail (.breadReturn (t := 1) rfl)
  replace hrun := hrun.tail (.quiet (.brelseCall (t := 1) (b := 0) rfl rfl)
    (Fin.forall_fin_two.mpr ⟨rfl, rfl⟩) (Fin.forall_fin_one.mpr rfl) (by simp [Fin.forall_fin_one]))
  replace hrun := hrun.tail (.quiet (.brelseAcquire (t := 1) (b := 0) rfl rfl)
    (Fin.forall_fin_two.mpr ⟨rfl, rfl⟩) (Fin.forall_fin_one.mpr rfl) fun _ _ h => h)
  replace hrun := hrun.tail (.quiet (.brelseBody (t := 1) (b := 0) rfl)
    (Fin.forall_fin_two.mpr ⟨rfl, rfl⟩) (Fin.forall_fin_one.mpr rfl) fun _ _ h => h)
  replace hrun := hrun.tail (.quiet (.release (t := 1) rfl)
    (Fin.forall_fin_two.mpr ⟨rfl, rfl⟩) (Fin.forall_fin_one.mpr rfl) fun _ _ h => h)
  -- It reads block 0 again.
  replace hrun := hrun.tail (.quiet (.bgetCall (t := 1) 1 0 rfl (by decide))
    (Fin.forall_fin_two.mpr ⟨rfl, rfl⟩) (Fin.forall_fin_one.mpr rfl) fun _ _ h => h)
  replace hrun := hrun.tail (.quiet (.bgetAcquire (t := 1) rfl rfl)
    (Fin.forall_fin_two.mpr ⟨rfl, rfl⟩) (Fin.forall_fin_one.mpr rfl) fun _ _ h => h)
  replace hrun := hrun.tail (.quiet (.bgetFound (t := 1) (b := 0) rfl rfl)
    (Fin.forall_fin_two.mpr ⟨rfl, rfl⟩) (Fin.forall_fin_one.mpr rfl) fun _ _ h => h)
  replace hrun := hrun.tail (.quiet (.bgetRelease (t := 1) rfl)
    (Fin.forall_fin_two.mpr ⟨rfl, rfl⟩) (Fin.forall_fin_one.mpr rfl) fun _ _ h => h)
  replace hrun := hrun.tail (.bgetReturn (t := 1) rfl rfl)
  replace hrun := hrun.tail (.testInvalid (t := 1) rfl rfl)
  replace hrun := hrun.tail (.fill (t := 1) rfl)
  replace hrun := hrun.tail (.mark (t := 1) rfl)
  replace hrun := hrun.tail (.breadReturn (t := 1) rfl)
  exact ⟨_, hrun, bread_transparent hrun⟩

end OperateSystem.Bio

import OperateSystem.Core.Trace
import OperateSystem.Pipe.Transfer
import OperateSystem.Vm.UserCopy

/-!
# What the calls on a pipe report

`pipewrite` and `piperead` return a number of bytes or -1.  A call gives up the lock of the
pipe only in `sleep`; when it wakes up the pipe may be any pipe, with its other end closed
or not, and the process may be killed at any time.  The report is compared with the bytes
that the call itself has put into the ring or taken out of it.

`piperead` takes a byte before `copyout` fails on it, and `pipewrite` returns -1 also when
it has put bytes into the ring before it went to sleep.
-/

namespace OperateSystem.Pipe

open OperateSystem.RingBuffer OperateSystem.Traces OperateSystem.Vm

/-- `struct pipe`. -/
structure PipeData where
  ring : Buffer 32 Byte
  readopen : Bool
  writeopen : Bool
  bound : ring.count ≤ pipesize

namespace PipeData

variable {pi : PipeData}

/-- The unread bytes. -/
def contents (pi : PipeData) : List Byte := pi.ring.contents pipesize

/-- `pi->nwrite == pi->nread + PIPESIZE`. -/
def Full (pi : PipeData) : Prop := pi.ring.nwrite = pi.ring.nread + BitVec.ofNat 32 pipesize

/-- `pi->nread == pi->nwrite`. -/
def Empty (pi : PipeData) : Prop := pi.ring.nread = pi.ring.nwrite

instance (pi : PipeData) : Decidable pi.Full := inferInstanceAs (Decidable (_ = _))

instance (pi : PipeData) : Decidable pi.Empty := inferInstanceAs (Decidable (_ = _))

@[simp] theorem length_contents (pi : PipeData) : pi.contents.length = pi.ring.count := by
  rw [contents, Buffer.contents, List.length_map, List.length_range]

theorem count_lt (hroom : ¬ pi.Full) : pi.ring.count < pipesize := by
  apply Nat.lt_of_le_of_ne pi.bound
  intro heq
  exact hroom ((Buffer.count_eq_size_iff (by decide) pi.ring).mp heq)

theorem empty_iff : pi.Empty ↔ pi.contents = [] := by
  rw [← List.length_eq_zero_iff, length_contents]
  exact (Buffer.count_eq_zero_iff pi.ring).symm

theorem count_pos (hsome : ¬ pi.Empty) : 0 < pi.ring.count :=
  Nat.pos_of_ne_zero fun hzero => hsome ((Buffer.count_eq_zero_iff pi.ring).mp hzero)

/-- `pi->data[pi->nwrite++ % PIPESIZE] = ch`. -/
def append (pi : PipeData) (ch : Byte) (hroom : ¬ pi.Full) : PipeData where
  ring := pi.ring.push pipesize ch
  readopen := pi.readopen
  writeopen := pi.writeopen
  bound := by
    rw [Buffer.count_push (by decide) (count_lt hroom)]
    exact count_lt hroom

/-- `ch = pi->data[pi->nread++ % PIPESIZE]`: the byte and the pipe without it. -/
def take (pi : PipeData) (hsome : ¬ pi.Empty) : Byte × PipeData :=
  (pi.ring.front pipesize,
    { ring := pi.ring.pop
      readopen := pi.readopen
      writeopen := pi.writeopen
      bound := by
        have hcount := Buffer.count_pop (count_pos hsome)
        have hbound := pi.bound
        omega })

theorem contents_append (ch : Byte) (hroom : ¬ pi.Full) :
    (pi.append ch hroom).contents = pi.contents ++ [ch] :=
  Buffer.contents_push (by decide) (by decide) (count_lt hroom) ch

theorem contents_take (hsome : ¬ pi.Empty) :
    pi.contents = (pi.take hsome).1 :: (pi.take hsome).2.contents :=
  Buffer.contents_pop (count_pos hsome)

end PipeData

/-! ## The calls -/

/-- A call runs with the lock of the pipe, sleeps without it, or has returned. -/
inductive Stage
  | running
  | asleep
  | returned (ret : Int)
  deriving DecidableEq

/-- A call on a pipe by a process, with what is local to the call. -/
structure Call (Local : Type) where
  pipe : PipeData
  killed : Bool
  stage : Stage
  frame : Local

/-- The call runs until it sleeps or returns or is about to go on with its loop; it is woken
up with the pipe as others have left it; its process is killed. -/
inductive Event
  | run
  | wakeup (pipe : PipeData)
  | kill

section Calls

variable {Local : Type} {run : Call Local → Except Fault (Call Local)}

inductive CallStep (run : Call Local → Except Fault (Call Local)) :
    Call Local → Event → Call Local → Prop
  | run {c c' : Call Local} (hstage : c.stage = .running) (hrun : run c = .ok c') :
      CallStep run c .run c'
  | wakeup {c : Call Local} (hstage : c.stage = .asleep) (pipe : PipeData) :
      CallStep run c (.wakeup pipe) { c with pipe := pipe, stage := .running }
  | kill {c : Call Local} (hstage : ∀ ret, c.stage ≠ .returned ret) :
      CallStep run c .kill { c with killed := true }

end Calls

/-- `i` of `pipewrite`, and the record of the bytes that the call has appended. -/
structure Written where
  i : ℕ
  appended : List Byte

/-- A turn of the loop of `pipewrite(pi, addr, n)`.  `copyin_new` is not part of the
sources; for one byte it delivers the byte at the address or fails. -/
def pipewrite (copyinNew : ℕ → Option Byte) (addr n : ℕ) (c : Call Written) :
    Except Fault (Call Written) :=
  if c.frame.i < n then
    if hfull : c.pipe.Full then
      if c.pipe.readopen = false ∨ c.killed = true then .ok { c with stage := .returned (-1) }
      else .ok { c with stage := .asleep }
    else
      match copyinNew (u64 (addr + c.frame.i)) with
      | none => .ok { c with stage := .returned c.frame.i }
      | some ch => .ok { c with
          pipe := c.pipe.append ch hfull
          frame := ⟨c.frame.i + 1, c.frame.appended ++ [ch]⟩ }
  else .ok { c with stage := .returned c.frame.i }

/-- The memory with the page table of the process, and the record of the bytes that the
call has taken. -/
structure Taken where
  machine : Machine
  taken : List Byte

/-- The loop of `piperead` from turn `i` on, with `k` turns to go at most. -/
def pipereadLoop (root addr : ℕ) : (k i : ℕ) → Call Taken → Except Fault (Call Taken)
  | 0, i, c => .ok { c with stage := .returned i }
  | k + 1, i, c =>
      if hempty : c.pipe.Empty then .ok { c with stage := .returned i }
      else do
        let (ch, pipe) := c.pipe.take hempty
        let (ok, machine) ← copyout c.frame.machine root (u64 (addr + i)) [ch]
        let c := { c with pipe := pipe, frame := ⟨machine, c.frame.taken ++ [ch]⟩ }
        if ok then pipereadLoop root addr k (i + 1) c
        else .ok { c with stage := .returned i }

/-- `piperead(pi, addr, n)` up to `sleep` or its end. -/
def piperead (root addr n : ℕ) (c : Call Taken) : Except Fault (Call Taken) :=
  if c.pipe.Empty ∧ c.pipe.writeopen = true then
    if c.killed = true then .ok { c with stage := .returned (-1) }
    else .ok { c with stage := .asleep }
  else pipereadLoop root addr n 0 c

/-- A call that has just acquired the lock. -/
def Call.start {Local : Type} (pipe : PipeData) (killed : Bool) (frame : Local) : Call Local :=
  ⟨pipe, killed, .running, frame⟩

/-! ## What a call reports -/

/-- The bytes that can be read from `addr` on start with `bytes`. -/
def Reads (copyinNew : ℕ → Option Byte) (addr : ℕ) (bytes : List Byte) : Prop :=
  bytes.map some = (List.range bytes.length).map fun k => copyinNew (u64 (addr + k : ℕ))

/-- A `pipewrite` that returns -1 has appended nothing, and one that returns a count has
appended that many bytes, the first ones at `addr`. -/
def WriteAccounts (copyinNew : ℕ → Option Byte) (addr : ℕ) (c : Call Written) : Prop :=
  ∀ ret, c.stage = .returned ret → (ret = -1 ∧ c.frame.appended = []) ∨
    (ret = c.frame.appended.length ∧ Reads copyinNew addr c.frame.appended)

/-- A `piperead` that returns -1 has taken nothing, and one that returns a count has taken
that many bytes and stored them at `addr`, where the memory was `m` before. -/
def ReadAccounts (m : Machine) (root addr : ℕ) (c : Call Taken) : Prop :=
  ∀ ret, c.stage = .returned ret → (ret = -1 ∧ c.frame.taken = [] ∧ c.frame.machine = m) ∨
    (ret = c.frame.taken.length ∧ Stores m c.frame.machine root addr c.frame.taken)

/-- The call puts into the ring what it records. -/
def Appends (c : Call Written) : Event → Call Written → Prop
  | .run, c' => ∃ bytes, c'.frame.appended = c.frame.appended ++ bytes ∧
      c'.pipe.contents = c.pipe.contents ++ bytes
  | _, c' => c'.frame = c.frame

/-- The call takes out of the ring what it records. -/
def Takes (c : Call Taken) : Event → Call Taken → Prop
  | .run, c' => ∃ bytes, c'.frame.taken = c.frame.taken ++ bytes ∧
      c.pipe.contents = bytes ++ c'.pipe.contents
  | _, c' => c'.frame = c.frame

/-- The call is about to find the pipe full with the reader gone or the process killed. -/
def GivesUp (n : ℕ) (c : Call Written) : Prop :=
  c.frame.i < n ∧ c.pipe.Full ∧ (c.pipe.readopen = false ∨ c.killed = true)

/-- A writer gives up only before its first byte. -/
def WriteGood (n : ℕ) (c : Call Written) : Event → Prop
  | .run => GivesUp n c → c.frame.i = 0
  | _ => True

/-- A reader that has not to wait can use the pages for all bytes that it will get. -/
def ReadGood (root addr n : ℕ) (c : Call Taken) : Event → Prop
  | .run => ¬ (c.pipe.Empty ∧ c.pipe.writeopen = true) →
      UserRange c.frame.machine root addr (min n c.pipe.ring.count)
  | _ => True

section Write

variable {copyinNew : ℕ → Option Byte} {addr n : ℕ} {c c' : Call Written}

theorem reads_append {bytes : List Byte} {ch : Byte} (h : Reads copyinNew addr bytes)
    (hch : copyinNew (u64 (addr + bytes.length : ℕ)) = some ch) :
    Reads copyinNew addr (bytes ++ [ch]) := by
  rw [Reads, List.map_append, List.length_append, List.length_singleton, List.range_succ,
    List.map_append, ← h, List.map_singleton, List.map_singleton, hch]

/-- What a turn of `pipewrite` can do. -/
theorem pipewrite_cases (h : pipewrite copyinNew addr n c = .ok c') :
    (GivesUp n c ∧ c' = { c with stage := .returned (-1) }) ∨
    (¬ GivesUp n c ∧
      (c' = { c with stage := .asleep } ∨ c' = { c with stage := .returned c.frame.i } ∨
        ∃ ch, ∃ hroom : ¬ c.pipe.Full, copyinNew (u64 (addr + c.frame.i : ℕ)) = some ch ∧
          c' = { c with
            pipe := c.pipe.append ch hroom
            frame := ⟨c.frame.i + 1, c.frame.appended ++ [ch]⟩ })) := by
  rw [pipewrite] at h
  by_cases hi : c.frame.i < n
  · rw [if_pos hi] at h
    by_cases hfull : c.pipe.Full
    · rw [dif_pos hfull] at h
      by_cases hgone : c.pipe.readopen = false ∨ c.killed = true
      · rw [if_pos hgone] at h
        exact Or.inl ⟨⟨hi, hfull, hgone⟩, (Except.ok.inj h).symm⟩
      · rw [if_neg hgone] at h
        exact Or.inr ⟨fun hgives => hgone hgives.2.2, Or.inl (Except.ok.inj h).symm⟩
    · rw [dif_neg hfull] at h
      refine Or.inr ⟨fun hgives => hfull hgives.2.1, Or.inr ?_⟩
      cases hch : copyinNew (u64 (addr + c.frame.i : ℕ)) with
      | none =>
          rw [← Nat.cast_add, hch] at h
          exact Or.inl (Except.ok.inj h).symm
      | some ch =>
          rw [← Nat.cast_add, hch] at h
          exact Or.inr ⟨ch, hfull, rfl, (Except.ok.inj h).symm⟩
  · rw [if_neg hi] at h
    exact Or.inr ⟨fun hgives => hi hgives.1, Or.inr (Or.inl (Except.ok.inj h).symm)⟩

theorem pipewrite_appends {event : Event}
    (h : CallStep (pipewrite copyinNew addr n) c event c') : Appends c event c' := by
  cases h with
  | run hstage hrun =>
      obtain ⟨-, rfl⟩ | ⟨-, rfl | rfl | ⟨ch, hroom, -, rfl⟩⟩ := pipewrite_cases hrun
      · exact ⟨[], (List.append_nil _).symm, (List.append_nil _).symm⟩
      · exact ⟨[], (List.append_nil _).symm, (List.append_nil _).symm⟩
      · exact ⟨[], (List.append_nil _).symm, (List.append_nil _).symm⟩
      · exact ⟨[ch], rfl, PipeData.contents_append ch hroom⟩
  | wakeup hstage pipe => rfl
  | kill hstage => rfl

/-- Until it returns the call has appended the first `i` bytes. -/
def WriteInv (copyinNew : ℕ → Option Byte) (addr : ℕ) (c : Call Written) : Prop :=
  (∃ ret, c.stage = .returned ret) ∨
    (c.frame.i = c.frame.appended.length ∧ Reads copyinNew addr c.frame.appended)

theorem pipewrite_step {event : Event} (hinv : WriteInv copyinNew addr c)
    (h : CallStep (pipewrite copyinNew addr n) c event c') :
    (WriteAccounts copyinNew addr c' ↔ WriteGood n c event) ∧
      (WriteGood n c event → WriteInv copyinNew addr c') := by
  have hlive : (∀ ret, c.stage ≠ .returned ret) → c.frame.i = c.frame.appended.length ∧
      Reads copyinNew addr c.frame.appended := by
    intro hstage
    exact hinv.resolve_left fun ⟨ret, hret⟩ => hstage ret hret
  cases h with
  | run hstage hrun =>
      obtain ⟨hlength, hreads⟩ := hlive (by simp [hstage])
      obtain ⟨hgives, rfl⟩ | ⟨hgives, rfl | rfl | ⟨ch, hroom, hch, rfl⟩⟩ := pipewrite_cases hrun
      · refine ⟨?_, fun _ => Or.inl ⟨_, rfl⟩⟩
        constructor
        · intro haccounts _
          obtain ⟨-, hnil⟩ | ⟨hcount, -⟩ := haccounts (-1) rfl
          · rw [hlength, hnil]
            rfl
          · omega
        · intro hgood ret hret
          cases hret
          have hzero : c.frame.i = 0 := hgood hgives
          rw [hlength] at hzero
          exact Or.inl ⟨rfl, List.length_eq_zero_iff.mp hzero⟩
      · refine ⟨iff_of_true (fun ret hret => ?_) fun hgives' => absurd hgives' hgives,
          fun _ => Or.inr ⟨hlength, hreads⟩⟩
        cases hret
      · refine ⟨iff_of_true (fun ret hret => ?_) fun hgives' => absurd hgives' hgives,
          fun _ => Or.inl ⟨_, rfl⟩⟩
        cases hret
        exact Or.inr ⟨congrArg Nat.cast hlength, hreads⟩
      · refine ⟨iff_of_true (fun ret hret => ?_) fun hgives' => absurd hgives' hgives,
          fun _ => Or.inr ⟨?_, ?_⟩⟩
        · rw [hstage] at hret
          cases hret
        · rw [List.length_append, List.length_singleton, ← hlength]
        · rw [hlength] at hch
          exact reads_append hreads hch
  | wakeup hstage pipe =>
      refine ⟨iff_of_true (fun ret hret => ?_) trivial, fun _ => Or.inr (hlive (by simp [hstage]))⟩
      cases hret
  | kill hstage =>
      exact ⟨iff_of_true (fun ret hret => absurd hret (hstage ret)) trivial,
        fun _ => Or.inr (hlive hstage)⟩

end Write

section Read

variable {m : Machine} {root addr n : ℕ} {c c' : Call Taken}

/-- The address of a byte does not wrap around. -/
theorem u64_of_lt {va : ℕ} (hva : va < 2 ^ 64) : u64 va = va := by
  rw [u64]
  omega

/-- The loop stores the bytes that it takes up to the first that it cannot store, which is
gone from the ring. -/
theorem pipereadLoop_spec {k i : ℕ} (h : UserPages c.frame.machine root)
    (haddr : addr + i < 2 ^ 64) :
    ∃ r c', pipereadLoop root addr k i c = .ok c' ∧ c'.stage = .returned (i + r : ℕ) ∧
      Delivered c.frame.machine c'.frame.machine root (addr + i) (c.pipe.contents.take k) r ∧
      c'.frame.taken = c.frame.taken ++ (c.pipe.contents.take k).take (r + 1) ∧
      c.pipe.contents = (c.pipe.contents.take k).take (r + 1) ++ c'.pipe.contents := by
  induction k generalizing i c with
  | zero =>
      refine ⟨0, _, rfl, rfl, ?_, ?_, rfl⟩
      · exact delivered_nil c.frame.machine root (addr + i)
      · exact (List.append_nil _).symm
  | succ k ih =>
      rw [pipereadLoop]
      by_cases hempty : c.pipe.Empty
      · rw [dif_pos hempty]
        have hnil := PipeData.empty_iff.mp hempty
        rw [hnil, List.take_nil]
        refine ⟨0, _, rfl, rfl, ?_, ?_, ?_⟩
        · exact delivered_nil c.frame.machine root (addr + i)
        · exact (List.append_nil _).symm
        · exact hnil.symm
      · rw [dif_neg hempty, PipeData.contents_take hempty, List.take_succ_cons]
        generalize c.pipe.take hempty = front
        obtain ⟨ch, pipe⟩ := front
        obtain ⟨stored, machine, hcopy, hstored⟩ := @copyoutLoop_spec c.frame.machine root h
          [ch].length (addr + i) [ch] (le_refl _)
        rw [← copyout, ← u64_of_lt haddr] at hcopy
        have hle := hstored.le
        rw [List.length_singleton] at hcopy hle
        simp only [← Nat.cast_add, hcopy, ok_bind]
        rcases Nat.eq_or_lt_of_le hle with rfl | hlt
        · -- The byte is stored and the loop goes on behind it.
          have hnext := hstored.range (addr + i) (le_refl _) (by omega)
          rw [maxVa] at hnext
          obtain ⟨r, c', hloop, hstage, hrest, htaken, hcontents⟩ :=
            @ih { c with pipe := pipe, frame := ⟨machine, c.frame.taken ++ [ch]⟩ } (i + 1)
              (h.frame hstored.tables) (by omega)
          rw [decide_eq_true rfl, if_pos rfl]
          refine ⟨1 + r, c', hloop, ?_, hstored.append hrest, ?_, ?_⟩
          · rw [hstage, Nat.add_assoc]
          · rw [htaken, List.append_assoc, Nat.add_comm 1 r]
            rfl
          · rw [Nat.add_comm 1 r, List.take_succ_cons, List.cons_append]
            exact congrArg (List.cons ch) hcontents
        · obtain rfl : stored = 0 := by omega
          rw [decide_eq_false (by omega), if_neg Bool.false_ne_true]
          refine ⟨0, _, rfl, rfl, ?_, ?_, ?_⟩
          · refine ⟨Nat.zero_le _, hstored.range, fun _ => hstored.stop hlt, hstored.bytes,
              hstored.tables, hstored.free⟩
          · rw [Nat.zero_add, List.take_succ_cons, List.take_zero]
          · rw [Nat.zero_add, List.take_succ_cons, List.take_zero]
            rfl

/-- What a turn of `piperead` can do: where it has not to wait, it returns a count of bytes
that it has stored, and has taken one more if it could not store all of them. -/
theorem piperead_cases (h : UserPages c.frame.machine root) (haddr : addr < 2 ^ 64)
    (hrun : piperead root addr n c = .ok c') :
    ((c.pipe.Empty ∧ c.pipe.writeopen = true) ∧
      (c' = { c with stage := .returned (-1) } ∨ c' = { c with stage := .asleep })) ∨
    (¬ (c.pipe.Empty ∧ c.pipe.writeopen = true) ∧ ∃ r : ℕ, c'.stage = .returned r ∧
      Delivered c.frame.machine c'.frame.machine root addr (c.pipe.contents.take n) r ∧
      c'.frame.taken = c.frame.taken ++ (c.pipe.contents.take n).take (r + 1) ∧
      c.pipe.contents = (c.pipe.contents.take n).take (r + 1) ++ c'.pipe.contents) := by
  rw [piperead] at hrun
  by_cases hwait : c.pipe.Empty ∧ c.pipe.writeopen = true
  · rw [if_pos hwait] at hrun
    refine Or.inl ⟨hwait, ?_⟩
    by_cases hkilled : c.killed = true
    · rw [if_pos hkilled] at hrun
      exact Or.inl (Except.ok.inj hrun).symm
    · rw [if_neg hkilled] at hrun
      exact Or.inr (Except.ok.inj hrun).symm
  · rw [if_neg hwait] at hrun
    obtain ⟨r, c'', hloop, hstage, hrest⟩ := @pipereadLoop_spec root addr c n 0 h haddr
    obtain rfl := Except.ok.inj (hloop.symm.trans hrun)
    rw [Nat.zero_add] at hstage
    exact Or.inr ⟨hwait, r, hstage, hrest⟩

/-- Until it returns the call has taken nothing and the memory is as before. -/
def ReadInv (m : Machine) (c : Call Taken) : Prop :=
  (∃ ret, c.stage = .returned ret) ∨ c.frame = ⟨m, []⟩

theorem piperead_step {event : Event} (h : UserPages m root) (hdistinct : DistinctPages m root)
    (haddr : addr < 2 ^ 64) (hinv : ReadInv m c)
    (hstep : CallStep (piperead root addr n) c event c') :
    Takes c event c' ∧ (ReadAccounts m root addr c' ↔ ReadGood root addr n c event) ∧
      ReadInv m c' := by
  have hlive : (∀ ret, c.stage ≠ .returned ret) → c.frame = ⟨m, []⟩ := by
    intro hstage
    exact hinv.resolve_left fun ⟨ret, hret⟩ => hstage ret hret
  cases hstep with
  | run hstage hrun =>
      have hframe := hlive (by simp [hstage])
      have hmachine : c.frame.machine = m := by rw [hframe]
      have hnil : c.frame.taken = [] := by rw [hframe]
      obtain ⟨hwait, rfl | rfl⟩ | ⟨hwait, r, hret, hstored, htaken, hcontents⟩ :=
        piperead_cases (by rw [hmachine]; exact h) haddr hrun
      · refine ⟨⟨[], (List.append_nil _).symm, rfl⟩, ?_, Or.inl ⟨_, rfl⟩⟩
        refine iff_of_true (fun ret hret => ?_) fun hready => absurd hwait hready
        cases hret
        exact Or.inl ⟨rfl, hnil, hmachine⟩
      · refine ⟨⟨[], (List.append_nil _).symm, rfl⟩, ?_, Or.inr hframe⟩
        refine iff_of_true (fun ret hret => ?_) fun hready => absurd hwait hready
        cases hret
      · refine ⟨⟨_, htaken, hcontents⟩, ?_, Or.inl ⟨_, hret⟩⟩
        have hlength : (c.pipe.contents.take n).length = min n c.pipe.ring.count := by
          rw [List.length_take, PipeData.length_contents]
        rw [hnil, List.nil_append] at htaken
        rw [hmachine] at hstored
        rw [ReadGood, hmachine, ← hlength]
        constructor
        · intro haccounts _
          obtain ⟨hminus, -⟩ | ⟨hcount, -⟩ := haccounts r hret
          · omega
          · have hall : r = (c.pipe.contents.take n).length := by
              have hle := hstored.le
              rw [htaken, List.length_take] at hcount
              omega
            rw [← hall]
            exact hstored.range
        · intro hgood ret hret'
          have hrange := hgood hwait
          have hall : r = (c.pipe.contents.take n).length := by
            by_contra hne
            have hlt := Nat.lt_of_le_of_ne hstored.le hne
            exact hstored.stop hlt (hrange.mono hlt)
          subst hall
          rw [List.take_of_length_le (Nat.le_succ _)] at htaken
          obtain rfl := Stage.returned.inj (hret.symm.trans hret')
          rw [htaken]
          exact Or.inr ⟨rfl, hstored.stores hdistinct⟩
  | wakeup hstage pipe =>
      refine ⟨rfl, iff_of_true (fun ret hret => ?_) trivial, Or.inr (hlive (by simp [hstage]))⟩
      cases hret
  | kill hstage =>
      exact ⟨rfl, iff_of_true (fun ret hret => absurd hret (hstage ret)) trivial,
        Or.inr (hlive hstage)⟩

end Read

section Accounts

/-- In every run of a `pipewrite` the ring gets what the call records, and each return
accounts for it if and only if the call does not give up after its first byte. -/
def WriteRunsAccount (copyinNew : ℕ → Option Byte) (addr n : ℕ) : Prop :=
  ∀ pipe killed calls last,
    Trace (CallStep (pipewrite copyinNew addr n)) (.start pipe killed ⟨0, []⟩) calls last →
      (∀ e ∈ calls, Appends e.1 e.2.1 e.2.2) ∧
        ((∀ e ∈ calls, WriteAccounts copyinNew addr e.2.2) ↔ ∀ e ∈ calls, WriteGood n e.1 e.2.1)

/-- In every run of a `piperead` the ring loses what the call records, and each return
accounts for it if and only if the process can use the pages for all bytes that it gets. -/
def ReadRunsAccount (m : Machine) (root addr n : ℕ) : Prop :=
  ∀ pipe killed calls last,
    Trace (CallStep (piperead root addr n)) (.start pipe killed ⟨m, []⟩) calls last →
      (∀ e ∈ calls, Takes e.1 e.2.1 e.2.2) ∧
        ((∀ e ∈ calls, ReadAccounts m root addr e.2.2) ↔
          ∀ e ∈ calls, ReadGood root addr n e.1 e.2.1)

theorem writeRunsAccount (copyinNew : ℕ → Option Byte) (addr n : ℕ) :
    WriteRunsAccount copyinNew addr n := by
  intro pipe killed calls last h
  constructor
  · apply And.left
    apply h.forall_of (fun _ => True) (P := fun _ _ _ => True) trivial (fun _ _ => trivial)
    intro before event after _ _ hstep
    exact ⟨pipewrite_appends hstep, trivial⟩
  · apply @Trace.forall_iff _ _ _ _ _ _ (WriteInv copyinNew addr)
      (fun _ _ after => WriteAccounts copyinNew addr after) (WriteGood n) h (Or.inr ⟨rfl, rfl⟩)
    intro before event after hinv hstep
    exact pipewrite_step hinv hstep

theorem readRunsAccount {m : Machine} {root addr : ℕ} (hpages : UserPages m root)
    (hdistinct : DistinctPages m root) (haddr : addr < 2 ^ 64) (n : ℕ) :
    ReadRunsAccount m root addr n := by
  intro pipe killed calls last h
  constructor
  · apply And.left
    apply h.forall_of (ReadInv m) (P := fun _ _ _ => True) (Or.inr rfl) (fun _ _ => trivial)
    intro before event after hinv _ hstep
    obtain ⟨htakes, -, hinv'⟩ := piperead_step hpages hdistinct haddr hinv hstep
    exact ⟨htakes, hinv'⟩
  · apply @Trace.forall_iff _ _ _ _ _ _ (ReadInv m)
      (fun _ _ after => ReadAccounts m root addr after) (ReadGood root addr n) h (Or.inr rfl)
    intro before event after hinv hstep
    obtain ⟨-, hiff, hinv'⟩ := piperead_step hpages hdistinct haddr hinv hstep
    exact ⟨hiff, fun _ => hinv'⟩

/-- The returns of the two calls account for the bytes of the pipe exactly in the runs in
which no writer gives up after its first byte and every reader can use the pages for all
bytes that it gets. -/
theorem pipe_calls_account_iff (copyinNew : ℕ → Option Byte) {m : Machine} {root addr : ℕ}
    (hpages : UserPages m root) (hdistinct : DistinctPages m root) (haddr : addr < 2 ^ 64)
    (n : ℕ) : WriteRunsAccount copyinNew addr n ∧ ReadRunsAccount m root addr n :=
  ⟨writeRunsAccount copyinNew addr n, readRunsAccount hpages hdistinct haddr n⟩

end Accounts

section Example

/-- A pipe whose first `count` bytes are unread and are 7. -/
def sevens (count : ℕ) (hcount : count ≤ pipesize) (readopen : Bool) : PipeData where
  ring := ⟨fun _ => 7, 0, BitVec.ofNat 32 count⟩
  readopen := readopen
  writeopen := true
  bound := by
    change (BitVec.ofNat 32 count - 0#32).toNat ≤ pipesize
    rw [BitVec.sub_zero, BitVec.toNat_ofNat]
    exact (Nat.mod_le _ _).trans hcount

theorem twoPages_user : UserPages (twoPages 5) 1 :=
  ⟨fun _ => twoPages_nonnull (by decide) (by decide),
    fun _ => twoPages_apart (by decide) (by decide)⟩

/-- The stage in which a turn of a call ends, and what it has recorded. -/
theorem exists_turn {Local Seen : Type} {run : Call Local → Except Fault (Call Local)}
    {c : Call Local} {stage : Stage} {seen : Local → Seen} {value : Seen}
    (h : (run c).map (fun c' => (c'.stage, seen c'.frame)) = .ok (stage, value))
    (hstage : c.stage = .running) :
    ∃ c', CallStep run c .run c' ∧ c'.stage = stage ∧ seen c'.frame = value := by
  cases hrun : run c with
  | error fault =>
      rw [hrun] at h
      cases h
  | ok c' =>
      rw [hrun] at h
      have heq := Prod.ext_iff.mp (Except.ok.inj h)
      exact ⟨c', CallStep.run hstage hrun, heq⟩

/-- A writer of two bytes fills the pipe with the first one, sleeps until there is room again and
returns 2, and a reader that asks for two bytes gets the only one. -/
theorem pipe_calls_account_iff_sleeping :
    (∃ last : Call Written, last.stage = .returned 2 ∧ last.frame.appended = [8, 8] ∧
      WriteAccounts (fun _ => some 8) 0 last) ∧
    ∃ last : Call Taken, last.stage = .returned 1 ∧ last.frame.taken = [7] ∧
      ReadAccounts (twoPages 5) 1 (510 * 4096) last := by
  constructor
  · have hrun := @Trace.nil _ _ (CallStep (pipewrite (fun _ => some 8) 0 2))
      (.start (sevens 511 (by decide) true) false ⟨0, []⟩)
    replace hrun := hrun.snoc (.run rfl rfl)
    replace hrun := hrun.snoc (.run rfl rfl)
    replace hrun := hrun.snoc (.wakeup rfl (sevens 1 (by decide) true))
    replace hrun := hrun.snoc (.run rfl rfl)
    replace hrun := hrun.snoc (.run rfl rfl)
    have hruns := (pipe_calls_account_iff (fun _ => some 8) twoPages_user
      (twoPages_distinct (by decide) (by decide)) (show 0 < 2 ^ 64 by decide) 2).1
    refine ⟨_, rfl, rfl, (hruns _ _ _ _ hrun).2.mpr ?_ _ List.mem_cons_self⟩
    simp only [List.mem_cons, List.not_mem_nil, or_false]
    -- The reader stays and the process is not killed, so the writer never gives up.
    rintro e (rfl | rfl | rfl | rfl | rfl)
    · rintro ⟨-, -, hgone | hkilled⟩
      · cases hgone
      · cases hkilled
    · rintro ⟨-, -, hgone | hkilled⟩
      · cases hgone
      · cases hkilled
    · trivial
    · rintro ⟨-, -, hgone | hkilled⟩
      · cases hgone
      · cases hkilled
    · exact fun _ => rfl
  · obtain ⟨last, hstep, hstage, htaken⟩ := @exists_turn Taken (List Byte)
      (piperead 1 (510 * 4096) 2) (.start (sevens 1 (by decide) true) false ⟨twoPages 5, []⟩)
      (.returned 1) Taken.taken [7] (by decide +kernel) rfl
    refine ⟨last, hstage, htaken, ?_⟩
    have haddr : 510 * 4096 < 2 ^ 64 := by decide
    have hruns := (pipe_calls_account_iff (fun _ => none) twoPages_user
      (twoPages_distinct (by decide) (by decide)) haddr 2).2
    apply (hruns _ _ _ _ (Trace.snoc Trace.nil hstep)).2.mpr _ _ (List.mem_singleton_self _)
    intro e he
    obtain rfl := List.mem_singleton.mp he
    intro _
    apply @userRange_twoPages 5 (by decide) 0
    omega

/-- A reader that has no page for a byte loses it; a writer that puts in one of two bytes
and goes to sleep returns -1 when the reader is gone after that. -/
theorem pipe_calls_not_accounted :
    (∃ (calls : _) (last : Call Taken),
      Trace (CallStep (piperead 1 0 1)) (.start (sevens 1 (by decide) true) false ⟨twoPages 5, []⟩)
        calls last ∧ last.stage = .returned 0 ∧ last.frame.taken = [7] ∧
      ¬ ReadAccounts (twoPages 5) 1 0 last) ∧
    (∃ (calls : _) (last : Call Written),
      Trace (CallStep (pipewrite (fun _ => some 8) 0 2))
        (.start (sevens 511 (by decide) true) false ⟨0, []⟩) calls last ∧
      last.stage = .returned (-1) ∧ last.frame.appended = [8] ∧
      ¬ WriteAccounts (fun _ => some 8) 0 last) := by
  constructor
  · obtain ⟨last, hstep, hstage, htaken⟩ := @exists_turn Taken (List Byte) (piperead 1 0 1)
      (.start (sevens 1 (by decide) true) false ⟨twoPages 5, []⟩) (.returned 0) Taken.taken [7]
      (by decide +kernel) rfl
    refine ⟨_, last, Trace.snoc Trace.nil hstep, hstage, htaken, fun haccounts => ?_⟩
    obtain ⟨hminus, -⟩ | ⟨hcount, -⟩ := haccounts 0 hstage
    · cases hminus
    · rw [htaken] at hcount
      cases hcount
  · have hrun := @Trace.nil _ _ (CallStep (pipewrite (fun _ => some 8) 0 2))
      (.start (sevens 511 (by decide) true) false ⟨0, []⟩)
    replace hrun := hrun.snoc (.run rfl rfl)
    replace hrun := hrun.snoc (.run rfl rfl)
    replace hrun := hrun.snoc (.wakeup rfl (sevens 512 (by decide) false))
    replace hrun := hrun.snoc (.run rfl rfl)
    refine ⟨_, _, hrun, rfl, rfl, fun haccounts => ?_⟩
    obtain ⟨-, hnil⟩ | ⟨hcount, -⟩ := haccounts (-1) rfl
    · cases hnil
    · cases hcount

end Example

end OperateSystem.Pipe

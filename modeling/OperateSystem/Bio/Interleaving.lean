import Mathlib.Tactic.Simps.Basic
import OperateSystem.Bio.Cache

/-!
# Processes running the buffer cache

Any number of processes call `bget`, `brelse`, `bpin` and `bunpin`.  A step is
one acquire or release of a bucket lock, the body of one lock region, one racy
read of `lock[i].locked`, or one operation on the sleep lock of a buffer.  A
process may hold several buffers, so the sleep locks are recorded per buffer
and the program counter describes only the call in progress.
-/

namespace OperateSystem.Bio

variable {nbuf : ℕ} {Tid : Type*} [DecidableEq Tid]

/-- Where a process stands. -/
inductive Pc (nbuf : ℕ)
  | idle
  | bgetAcquire (dev blockno : ℕ)
  | bgetHome (dev blockno : ℕ)
  | stealTest (dev blockno findCount : ℕ)
  | stealAcquire (dev blockno : ℕ) (findCount : Fin nbuckets)
  | stealBody (dev blockno : ℕ) (findCount : Fin nbuckets)
  | stealNext (dev blockno : ℕ) (findCount : Fin nbuckets)
  | stolen (b : Fin nbuf) (currentCount findCount : Fin nbuckets)
  | bgetRelease (b : Fin nbuf) (currentCount : Fin nbuckets)
  | bgetSleep (b : Fin nbuf)
  | bgetFail (currentCount : Fin nbuckets)
  | brelseAcquire (b : Fin nbuf) (currentCount : Fin nbuckets)
  | brelseBody (b : Fin nbuf) (currentCount : Fin nbuckets)
  | bpinAcquire (b : Fin nbuf) (currentCount : Fin nbuckets)
  | bpinBody (b : Fin nbuf) (currentCount : Fin nbuckets)
  | bunpinAcquire (b : Fin nbuf) (currentCount : Fin nbuckets)
  | bunpinBody (b : Fin nbuf) (currentCount : Fin nbuckets)
  | release (currentCount : Fin nbuckets)
  | panicked

/-- The whole system.  `pins` counts, for every buffer, the calls of `bpin`
that no call of `bunpin` has answered yet. -/
structure State (nbuf : ℕ) (Tid : Type*) where
  cache : Cache nbuf
  lock : Fin nbuckets → Option Tid
  sleepLock : Fin nbuf → Option Tid
  pins : Fin nbuf → ℕ
  pc : Tid → Pc nbuf

namespace State

@[simps]
def goto (s : State nbuf Tid) (t : Tid) (pc : Pc nbuf) : State nbuf Tid :=
  { s with pc := Function.update s.pc t pc }

@[simps]
def withCache (s : State nbuf Tid) (cache : Cache nbuf) : State nbuf Tid :=
  { s with cache := cache }

@[simps]
def setLock (s : State nbuf Tid) (k : Fin nbuckets) (holder : Option Tid) :
    State nbuf Tid :=
  { s with lock := Function.update s.lock k holder }

@[simps]
def setSleepLock (s : State nbuf Tid) (b : Fin nbuf) (holder : Option Tid) :
    State nbuf Tid :=
  { s with sleepLock := Function.update s.sleepLock b holder }

@[simps]
def setPins (s : State nbuf Tid) (b : Fin nbuf) (pins : ℕ) : State nbuf Tid :=
  { s with pins := Function.update s.pins b pins }

/-- All processes idle, all locks free, nothing pinned. -/
@[simps]
def boot (cache : Cache nbuf) : State nbuf Tid :=
  ⟨cache, fun _ => none, fun _ => none, fun _ => 0, fun _ => .idle⟩

end State

/-- One step of process `t`. -/
inductive Step : State nbuf Tid → State nbuf Tid → Prop
  /-- `bget` is called for a block of a device other than 0. -/
  | bgetCall {s t} (dev blockno : ℕ) (hpc : s.pc t = .idle) (hdev : dev ≠ 0) :
      Step s (s.goto t (.bgetAcquire dev blockno))
  | bgetAcquire {s t dev blockno} (hpc : s.pc t = .bgetAcquire dev blockno)
      (hfree : s.lock (bucketOf blockno) = none) :
      Step s ((s.setLock (bucketOf blockno) (some t)).goto t (.bgetHome dev blockno))
  | bgetFound {s t dev blockno b cache} (hpc : s.pc t = .bgetHome dev blockno)
      (hbody : s.cache.bgetHome dev blockno = some (some b, cache)) :
      Step s ((s.withCache cache).goto t (.bgetRelease b (bucketOf blockno)))
  | bgetMiss {s t dev blockno cache} (hpc : s.pc t = .bgetHome dev blockno)
      (hbody : s.cache.bgetHome dev blockno = some (none, cache)) :
      Step s ((s.withCache cache).goto t (.stealTest dev blockno (bucketOf blockno + 1 : ℕ)))
  /-- The loop test fails: no bucket is left. -/
  | stealEnd {s t dev blockno} {findCount : ℕ}
      (hpc : s.pc t = .stealTest dev blockno findCount)
      (hend : findCount = (bucketOf blockno : ℕ)) :
      Step s (s.goto t (.bgetFail (bucketOf blockno)))
  /-- The racy read sees the lock taken: `continue`. -/
  | stealSkip {s t dev blockno} {findCount : ℕ}
      (hpc : s.pc t = .stealTest dev blockno findCount)
      (hgo : findCount ≠ (bucketOf blockno : ℕ))
      (hlocked : (s.lock (bucketOf findCount)).isSome) :
      Step s (s.goto t (.stealTest dev blockno (bucketOf findCount + 1 : ℕ)))
  /-- The racy read sees the lock free. -/
  | stealTry {s t dev blockno} {findCount : ℕ}
      (hpc : s.pc t = .stealTest dev blockno findCount)
      (hgo : findCount ≠ (bucketOf blockno : ℕ)) (hfree : s.lock (bucketOf findCount) = none) :
      Step s (s.goto t (.stealAcquire dev blockno (bucketOf findCount)))
  | stealAcquire {s t dev blockno findCount}
      (hpc : s.pc t = .stealAcquire dev blockno findCount)
      (hfree : s.lock findCount = none) :
      Step s ((s.setLock findCount (some t)).goto t (.stealBody dev blockno findCount))
  | stealFound {s t dev blockno findCount b cache}
      (hpc : s.pc t = .stealBody dev blockno findCount)
      (hbody : s.cache.bgetSteal dev blockno findCount = some (some b, cache)) :
      Step s ((s.withCache cache).goto t (.stolen b (bucketOf blockno) findCount))
  | stealMiss {s t dev blockno findCount cache}
      (hpc : s.pc t = .stealBody dev blockno findCount)
      (hbody : s.cache.bgetSteal dev blockno findCount = some (none, cache)) :
      Step s ((s.withCache cache).goto t (.stealNext dev blockno findCount))
  | stealNext {s t dev blockno findCount} (hpc : s.pc t = .stealNext dev blockno findCount) :
      Step s ((s.setLock findCount none).goto t
        (.stealTest dev blockno (findCount + 1 : ℕ)))
  | stolen {s t b currentCount findCount} (hpc : s.pc t = .stolen b currentCount findCount) :
      Step s ((s.setLock findCount none).goto t (.bgetRelease b currentCount))
  | bgetRelease {s t b currentCount} (hpc : s.pc t = .bgetRelease b currentCount) :
      Step s ((s.setLock currentCount none).goto t (.bgetSleep b))
  /-- `acquiresleep`; the process now holds the buffer and `bget` returns it. -/
  | bgetSleep {s t b} (hpc : s.pc t = .bgetSleep b) (hfree : s.sleepLock b = none) :
      Step s ((s.setSleepLock b (some t)).goto t .idle)
  /-- `panic("bget: no buffers")`. -/
  | bgetFail {s t currentCount} (hpc : s.pc t = .bgetFail currentCount) :
      Step s ((s.setLock currentCount none).goto t .panicked)
  /-- `brelse` is called by the holder; it reads `blockno` and releases the
  sleep lock before it takes the bucket lock. -/
  | brelseCall {s t b} (hpc : s.pc t = .idle) (hholding : s.sleepLock b = some t) :
      Step s ((s.setSleepLock b none).goto t
        (.brelseAcquire b (bucketOf (s.cache.blockno b))))
  | brelseAcquire {s t b currentCount} (hpc : s.pc t = .brelseAcquire b currentCount)
      (hfree : s.lock currentCount = none) :
      Step s ((s.setLock currentCount (some t)).goto t (.brelseBody b currentCount))
  | brelseBody {s t b currentCount} (hpc : s.pc t = .brelseBody b currentCount) :
      Step s ((s.withCache (s.cache.brelse b currentCount)).goto t (.release currentCount))
  | bpinCall {s t} (b : Fin nbuf) (hpc : s.pc t = .idle) :
      Step s (s.goto t (.bpinAcquire b (bucketOf (s.cache.blockno b))))
  | bpinAcquire {s t b currentCount} (hpc : s.pc t = .bpinAcquire b currentCount)
      (hfree : s.lock currentCount = none) :
      Step s ((s.setLock currentCount (some t)).goto t (.bpinBody b currentCount))
  | bpinBody {s t b currentCount} (hpc : s.pc t = .bpinBody b currentCount) :
      Step s (((s.withCache (s.cache.incr b)).setPins b (s.pins b + 1)).goto t
        (.release currentCount))
  /-- `bunpin` answers an earlier `bpin`. -/
  | bunpinCall {s t b} (hpc : s.pc t = .idle) (hpin : 0 < s.pins b) :
      Step s ((s.setPins b (s.pins b - 1)).goto t
        (.bunpinAcquire b (bucketOf (s.cache.blockno b))))
  | bunpinAcquire {s t b currentCount} (hpc : s.pc t = .bunpinAcquire b currentCount)
      (hfree : s.lock currentCount = none) :
      Step s ((s.setLock currentCount (some t)).goto t (.bunpinBody b currentCount))
  | bunpinBody {s t b currentCount} (hpc : s.pc t = .bunpinBody b currentCount) :
      Step s ((s.withCache (s.cache.decr b)).goto t (.release currentCount))
  | release {s t currentCount} (hpc : s.pc t = .release currentCount) :
      Step s ((s.setLock currentCount none).goto t .idle)

/-! ## What a program counter stands for -/

/-- The bucket locks held at a program counter. -/
def Pc.holds : Pc nbuf → Fin nbuckets → Prop
  | .bgetHome _ blockno, k | .stealTest _ blockno _, k | .stealAcquire _ blockno _, k =>
      k = bucketOf blockno
  | .stealBody _ blockno findCount, k | .stealNext _ blockno findCount, k =>
      k = bucketOf blockno ∨ k = findCount
  | .stolen _ currentCount findCount, k => k = currentCount ∨ k = findCount
  | .bgetRelease _ currentCount, k | .bgetFail currentCount, k
  | .brelseBody _ currentCount, k | .bpinBody _ currentCount, k
  | .bunpinBody _ currentCount, k | .release currentCount, k => k = currentCount
  | _, _ => False

/-- The block that is being looked for. -/
def Pc.target : Pc nbuf → Option (ℕ × ℕ)
  | .bgetAcquire dev blockno | .bgetHome dev blockno | .stealTest dev blockno _
  | .stealAcquire dev blockno _ | .stealBody dev blockno _ | .stealNext dev blockno _ =>
      some (dev, blockno)
  | _ => none

/-- The block that was not found in its home bucket. -/
def Pc.missed : Pc nbuf → Option (ℕ × ℕ)
  | .stealTest dev blockno _ | .stealAcquire dev blockno _ | .stealBody dev blockno _
  | .stealNext dev blockno _ => some (dev, blockno)
  | _ => none

/-- The buffer that `bget` has referenced and is waiting to lock. -/
def Pc.waitsFor : Pc nbuf → Option (Fin nbuf)
  | .stolen b _ _ | .bgetRelease b _ | .bgetSleep b => some b
  | _ => none

/-- The buffer whose reference `brelse` is about to drop. -/
def Pc.releases : Pc nbuf → Option (Fin nbuf)
  | .brelseAcquire b _ | .brelseBody b _ => some b
  | _ => none

/-- The buffer whose pin `bunpin` is about to drop. -/
def Pc.unpins : Pc nbuf → Option (Fin nbuf)
  | .bunpinAcquire b _ | .bunpinBody b _ => some b
  | _ => none

end OperateSystem.Bio

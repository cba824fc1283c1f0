import Mathlib.Data.Finset.Card
import OperateSystem.Core.Ring

/-!
# The hashed buffer cache

`bio.c` keeps `NBUF` buffers on `NBUCKETS` rings.  A buffer for block `blockno`
belongs on ring `blockno % NBUCKETS`; the rings run through the heads
`hashbucket[k]`.  This module embeds the data and the bodies of the lock
regions of `bget`, `brelse`, `bpin` and `bunpin`, and `binit`.

`NBUF` comes from a header, so it is a parameter.
-/

namespace OperateSystem.Bio

open OperateSystem.Ring

/-- `NBUCKETS`. -/
def nbuckets : ℕ := 13

/-- A node of a ring: one of the buffers, or the head of a bucket. -/
inductive Node (nbuf : ℕ)
  | buf (b : Fin nbuf)
  | bucket (k : Fin nbuckets)
  deriving DecidableEq

/-- `blockno % NBUCKETS`. -/
def bucketOf (blockno : ℕ) : Fin nbuckets :=
  ⟨blockno % nbuckets, Nat.mod_lt _ (by decide)⟩

/-- The links of all nodes and the fields of `struct buf` that the cache
itself reads and writes. -/
structure Cache (nbuf : ℕ) where
  links : Links (Node nbuf)
  dev : Fin nbuf → ℕ
  blockno : Fin nbuf → ℕ
  refcnt : Fin nbuf → ℕ
  valid : Fin nbuf → Bool

variable {nbuf : ℕ}

/-- `for(b = start; b != &hashbucket[head]; b = step(b)) if(test(b)) ...`:
the first buffer that passes the test.  The outer `none` is a walk that has not
come back to its head within the fuel. -/
def scan (step : Node nbuf → Node nbuf) (test : Fin nbuf → Bool)
    (head : Fin nbuckets) : ℕ → Node nbuf → Option (Option (Fin nbuf))
  | 0, _ => none
  | _ + 1, .bucket k => if k = head then some none else none
  | fuel + 1, .buf b =>
      if test b then some (some b) else scan step test head fuel (step (.buf b))

namespace Cache

/-- Walk a ring from its most recently used end. -/
def scanNext (c : Cache nbuf) (head : Fin nbuckets) (test : Fin nbuf → Bool) :
    Option (Option (Fin nbuf)) :=
  scan c.links.next test head (nbuf + 1) (c.links.next (.bucket head))

/-- Walk a ring from its least recently used end. -/
def scanPrev (c : Cache nbuf) (head : Fin nbuckets) (test : Fin nbuf → Bool) :
    Option (Option (Fin nbuf)) :=
  scan c.links.prev test head (nbuf + 1) (c.links.prev (.bucket head))

/-- `b->dev == dev && b->blockno == blockno`. -/
def hits (c : Cache nbuf) (dev blockno : ℕ) (b : Fin nbuf) : Bool :=
  c.dev b = dev && c.blockno b = blockno

/-- `b->refcnt == 0`. -/
def isFree (c : Cache nbuf) (b : Fin nbuf) : Bool := c.refcnt b = 0

/-- `b->refcnt++`. -/
def incr (c : Cache nbuf) (b : Fin nbuf) : Cache nbuf :=
  { c with refcnt := Function.update c.refcnt b (c.refcnt b + 1) }

/-- `b->refcnt--`. -/
def decr (c : Cache nbuf) (b : Fin nbuf) : Cache nbuf :=
  { c with refcnt := Function.update c.refcnt b (c.refcnt b - 1) }

/-- `b->dev = dev; b->blockno = blockno; b->valid = 0; b->refcnt = 1;` -/
def assign (c : Cache nbuf) (b : Fin nbuf) (dev blockno : ℕ) : Cache nbuf :=
  { c with
    dev := Function.update c.dev b dev
    blockno := Function.update c.blockno b blockno
    valid := Function.update c.valid b false
    refcnt := Function.update c.refcnt b 1 }

/-- Unlink `b` from the ring it is on and insert it at the front of bucket
`cur`. -/
def moveToFront (c : Cache nbuf) (b : Fin nbuf) (cur : Fin nbuckets) : Cache nbuf :=
  { c with links := (c.links.unlink (.buf b)).insertAfter (.bucket cur) (.buf b) }

/-- The part of `bget` that runs under the lock of the home bucket alone: look
for a cached buffer, then for a free one.  The result is the referenced buffer,
or `none` if other buckets have to be searched. -/
def bgetHome (c : Cache nbuf) (dev blockno : ℕ) :
    Option (Option (Fin nbuf) × Cache nbuf) :=
  match c.scanNext (bucketOf blockno) (c.hits dev blockno) with
  | none => none
  | some (some b) => some (some b, c.incr b)
  | some none =>
      match c.scanPrev (bucketOf blockno) c.isFree with
      | none => none
      | some (some b) => some (some b, c.assign b dev blockno)
      | some none => some (none, c)

/-- The body of the stealing loop of `bget` under the lock of bucket
`findCount`. -/
def bgetSteal (c : Cache nbuf) (dev blockno : ℕ) (findCount : Fin nbuckets) :
    Option (Option (Fin nbuf) × Cache nbuf) :=
  match c.scanPrev findCount c.isFree with
  | none => none
  | some (some b) =>
      some (some b, (c.moveToFront b (bucketOf blockno)).assign b dev blockno)
  | some none => some (none, c)

/-- The lock region of `brelse`. -/
def brelse (c : Cache nbuf) (b : Fin nbuf) (currentCount : Fin nbuckets) : Cache nbuf :=
  let c' := c.decr b
  if c'.refcnt b = 0 then c'.moveToFront b currentCount else c'

end Cache

/-- The heads of all buckets linked to themselves. -/
def emptyRings (garbage : Links (Node nbuf)) : Links (Node nbuf) where
  next
    | .buf b => garbage.next (.buf b)
    | .bucket k => .bucket k
  prev
    | .buf b => garbage.prev (.buf b)
    | .bucket k => .bucket k

/-- The second loop of `binit`: buffer number `i` goes to the front of bucket
`i % NBUCKETS`. -/
def binitLinks (garbage : Links (Node nbuf)) : Links (Node nbuf) :=
  (List.finRange nbuf).foldl
    (fun links (b : Fin nbuf) => links.insertAfter (.bucket (bucketOf b)) (.buf b))
    (emptyRings garbage)

/-- `binit`.  The fields of the buffers are zero before it runs. -/
def binit (garbage : Links (Node nbuf)) : Cache nbuf where
  links := binitLinks garbage
  dev _ := 0
  blockno _ := 0
  refcnt _ := 0
  valid _ := false

end OperateSystem.Bio

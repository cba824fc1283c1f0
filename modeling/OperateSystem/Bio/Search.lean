import OperateSystem.Bio.Exhaustion

/-!
# A call of `bget` on its own

The stealing loop of `bget` starts after its home bucket, reduces its counter modulo
`NBUCKETS` inside the body and compares it with the home bucket before the reduction.  It
comes back to a home bucket `k` through the counter value `k`, except to bucket 0, which
it reaches as `NBUCKETS`.  This module runs a call while no other process is inside a
lock region and says when it ends.
-/

namespace OperateSystem.Bio

open OperateSystem.Ring

variable {nbuf : ℕ}

/-- How a call of `bget` ends: with a buffer whose sleep lock it takes, or in
`panic("bget: no buffers")`. -/
inductive Outcome (nbuf : ℕ)
  | returns (b : Fin nbuf)
  | panics
  deriving DecidableEq

/-- The end of a call, with `lock[k].locked` for each bucket and the buckets whose rings
the stealing loop has searched. -/
structure Ended (nbuf : ℕ) where
  outcome : Outcome nbuf
  cache : Cache nbuf
  locked : Fin nbuckets → Bool
  visited : List (Fin nbuckets)

/-- The stealing loop of `bget`; `none` is a loop that has not ended within the fuel. -/
def stealLoop (dev blockno : ℕ) : (fuel : ℕ) → Cache nbuf → (locked : Fin nbuckets → Bool) →
    (findCount : ℕ) → Option (Ended nbuf)
  | 0, _, _, _ => none
  | fuel + 1, c, locked, findCount =>
      if findCount = bucketOf blockno then
        some ⟨.panics, c, Function.update locked (bucketOf blockno) false, []⟩
      else if locked (bucketOf findCount) then
        stealLoop dev blockno fuel c locked (bucketOf findCount + 1)
      else
        -- acquire(&bcache.lock[findCount]) and the release on either way out
        match c.bgetSteal dev blockno (bucketOf findCount) with
        | none => none
        | some (some b, c') =>
            some ⟨.returns b, c', Function.update locked (bucketOf blockno) false,
              [bucketOf findCount]⟩
        | some (none, c') =>
            (stealLoop dev blockno fuel c' locked (bucketOf findCount + 1)).map fun ended =>
              { ended with visited := bucketOf findCount :: ended.visited }

/-- `bget(dev, blockno)` up to `acquiresleep(&b->lock)`. -/
def bget (fuel : ℕ) (c : Cache nbuf) (locked : Fin nbuckets → Bool) (dev blockno : ℕ) :
    Option (Ended nbuf) :=
  let currentCount := bucketOf blockno
  -- acquire(&bcache.lock[currentCount]) spins on a taken lock
  if locked currentCount then none
  else
    match c.bgetHome dev blockno with
    | none => none
    | some (some b, c') => some ⟨.returns b, c', locked, []⟩
    | some (none, c') =>
        stealLoop dev blockno fuel c' (Function.update locked currentCount true) (currentCount + 1)

/-- No bucket lock is taken. -/
def unlocked : Fin nbuckets → Bool := fun _ => false

/-- Some buffer on the ring of its bucket holds the block. -/
def Cache.Cached (c : Cache nbuf) (dev blockno : ℕ) : Prop :=
  ∃ b, OnRing c.links (bucketOf blockno) b ∧ c.dev b = dev ∧ c.blockno b = blockno

/-- Every buffer is in use. -/
def Cache.AllUsed (c : Cache nbuf) : Prop := ∀ b, 0 < c.refcnt b

/-- The call ends, with a buffer for the block when it is cached or a buffer is free, and
in a panic exactly when neither is the case.  The stealing loop searches no ring twice
and never that of the home bucket. -/
def Cache.Answers (c : Cache nbuf) (dev blockno : ℕ) : Prop :=
  ∃ ended : Ended nbuf, (∃ enough, ∀ fuel ≥ enough, bget fuel c unlocked dev blockno = some ended) ∧
    (c.Cached dev blockno ∨ (∃ b, c.refcnt b = 0) →
      ∃ b, ended.outcome = .returns b ∧ ended.cache.dev b = dev ∧
        ended.cache.blockno b = blockno) ∧
    (ended.outcome = .panics ↔ ¬ c.Cached dev blockno ∧ c.AllUsed) ∧
    ended.visited.Nodup ∧ bucketOf blockno ∉ ended.visited

/-! ## The order of the buckets -/

section Order

/-- The buckets that the loop has before it when it comes to the home bucket in `count`
rounds. -/
def ahead (home : Fin nbuckets) (count : ℕ) : List (Fin nbuckets) :=
  (List.range' (home + nbuckets - count) count).map bucketOf

theorem ahead_succ (home : Fin nbuckets) {count : ℕ} (hcount : count < nbuckets) :
    ahead home (count + 1) = bucketOf (home + nbuckets - (count + 1)) :: ahead home count := by
  have hnext : home + nbuckets - (count + 1) + 1 = home + nbuckets - count := by omega
  rw [ahead, List.range'_succ, List.map_cons, hnext, ahead]

/-- The other buckets, in the order of the loop. -/
theorem ahead_spec (home : Fin nbuckets) :
    (ahead home 12).Nodup ∧ ∀ k, k ∈ ahead home 12 ↔ k ≠ home := by
  revert home
  decide

theorem ahead_suffix (home : Fin nbuckets) {count : ℕ} (hcount : count ≤ 12) :
    ahead home count <:+ ahead home 12 := by
  induction hcount using Nat.decreasingInduction with
  | self => exact List.suffix_rfl
  | of_succ count hlt ih =>
      rw [ahead_succ home (by rw [nbuckets]; omega)] at ih
      exact (List.suffix_cons _ _).trans ih

/-- The counter of the loop `count` rounds before the home bucket. -/
def counter (home : Fin nbuckets) (count : ℕ) : ℕ :=
  bucketOf (home + nbuckets - (count + 1)) + 1

theorem counter_spec (home : Fin nbuckets) {count : ℕ} (hcount : count < 12) :
    counter home (count + 1) ≠ home ∧
      bucketOf (counter home (count + 1)) = bucketOf (home + nbuckets - (count + 1)) := by
  have hall : ∀ (home : Fin nbuckets) (count : Fin 12), counter home (count + 1) ≠ home ∧
      bucketOf (counter home (count + 1)) = bucketOf (home + nbuckets - (count + 1)) := by
    decide
  exact hall home ⟨count, hcount⟩

/-- Only bucket 0 is missed by the test of the loop. -/
theorem counter_zero (home : Fin nbuckets) : counter home 0 = home ↔ home ≠ bucketOf 0 := by
  revert home
  decide

theorem counter_start (home : Fin nbuckets) : counter home 12 = home + 1 := by
  revert home
  decide

end Order

/-! ## The stealing loop -/

section Loop

variable {c : Cache nbuf} {ring : Fin nbuckets → List (Fin nbuf)} {dev blockno : ℕ}
  {locked : Fin nbuckets → Bool}

theorem bgetSteal_free (h : Rings c.links ring) {k : Fin nbuckets} {b : Fin nbuf}
    (hmem : b ∈ ring k) (hfree : c.refcnt b = 0) :
    ∃ b' c', c.bgetSteal dev blockno k = some (some b', c') ∧ c'.dev b' = dev ∧
      c'.blockno b' = blockno := by
  have hfind : ((ring k).reverse.find? c.isFree).isSome := by
    rw [List.find?_isSome]
    exact ⟨b, List.mem_reverse.mpr hmem, by simp [Cache.isFree, hfree]⟩
  obtain ⟨b', hb'⟩ := Option.isSome_iff_exists.mp hfind
  refine ⟨b', (c.moveToFront b' (bucketOf blockno)).assign b' dev blockno, ?_, ?_, ?_⟩
  · rw [Cache.bgetSteal, h.scanPrev, hb']
  · exact Function.update_self ..
  · exact Function.update_self ..

theorem bgetSteal_full (h : Rings c.links ring) {k : Fin nbuckets}
    (hfull : ∀ b ∈ ring k, 0 < c.refcnt b) : c.bgetSteal dev blockno k = some (none, c) := by
  have hnone : (ring k).reverse.find? c.isFree = none := by
    rw [List.find?_eq_none]
    intro b hb
    simpa [Cache.isFree, Nat.pos_iff_ne_zero] using hfull b (List.mem_reverse.mp hb)
  rw [Cache.bgetSteal, h.scanPrev, hnone]

theorem ahead_ne_home {home k : Fin nbuckets} {count : ℕ} (hcount : count ≤ 12)
    (hk : k ∈ ahead home count) : k ≠ home :=
  ((ahead_spec home).2 k).mp ((ahead_suffix home hcount).subset hk)

/-- One round of the loop. -/
theorem stealLoop_round (c : Cache nbuf) (dev : ℕ)
    (hlocked : ∀ k, locked k ↔ k = bucketOf blockno) {count : ℕ} (hcount : count < 12) :
    ∃ k, ahead (bucketOf blockno) (count + 1) = k :: ahead (bucketOf blockno) count ∧
      ∀ fuel, stealLoop dev blockno (fuel + 1) c locked (counter (bucketOf blockno) (count + 1)) =
        match c.bgetSteal dev blockno k with
        | none => none
        | some (some b, c') =>
            some ⟨.returns b, c', Function.update locked (bucketOf blockno) false, [k]⟩
        | some (none, c') =>
            (stealLoop dev blockno fuel c' locked (counter (bucketOf blockno) count)).map
              fun ended => { ended with visited := k :: ended.visited } := by
  obtain ⟨hne, hbucket⟩ := counter_spec (bucketOf blockno) hcount
  have hahead := @ahead_succ (bucketOf blockno) count (by rw [nbuckets]; omega)
  have hother := @ahead_ne_home (bucketOf blockno) _ (count + 1) (by omega)
    (by rw [hahead]; exact List.mem_cons_self)
  have hfree : ¬ locked (bucketOf (bucketOf blockno + nbuckets - (count + 1))) := by
    rw [hlocked]
    exact hother
  refine ⟨_, hahead, fun fuel => ?_⟩
  rw [stealLoop, if_neg hne, hbucket, if_neg hfree]
  rfl

/-- With a free buffer before it the loop takes one. -/
theorem stealLoop_free (h : Rings c.links ring) (hlocked : ∀ k, locked k ↔ k = bucketOf blockno)
    {count : ℕ} (hcount : count ≤ 12)
    (hfree : ∃ k ∈ ahead (bucketOf blockno) count, ∃ b ∈ ring k, c.refcnt b = 0) :
    ∃ ended : Ended nbuf, (∀ fuel ≥ count, stealLoop dev blockno fuel c locked
        (counter (bucketOf blockno) count) = some ended) ∧
      (∃ b, ended.outcome = .returns b ∧ ended.cache.dev b = dev ∧
        ended.cache.blockno b = blockno) ∧
      ended.visited <+: ahead (bucketOf blockno) count := by
  induction count with
  | zero => simp [ahead] at hfree
  | succ count ih =>
      obtain ⟨k, hahead, hround⟩ := stealLoop_round c dev hlocked hcount
      by_cases hhere : ∃ b ∈ ring k, c.refcnt b = 0
      · obtain ⟨b, hmem, hzero⟩ := hhere
        obtain ⟨b', c', hsteal, hdev, hblockno⟩ :=
          @bgetSteal_free _ c ring dev blockno h k b hmem hzero
        refine ⟨⟨.returns b', c', Function.update locked (bucketOf blockno) false, [k]⟩, ?_,
          ⟨b', rfl, hdev, hblockno⟩, ?_⟩
        · intro fuel hfuel
          obtain ⟨fuel, rfl⟩ := Nat.exists_eq_succ_of_ne_zero (Nat.ne_zero_of_lt hfuel)
          rw [hround, hsteal]
        · rw [hahead]
          exact ⟨ahead (bucketOf blockno) count, rfl⟩
      · -- This ring is full, so the free buffer is on one of the next rings.
        have hfull : ∀ b ∈ ring k, 0 < c.refcnt b := by
          intro b hb
          exact Nat.pos_of_ne_zero fun hzero => hhere ⟨b, hb, hzero⟩
        have hlater : ∃ k ∈ ahead (bucketOf blockno) count, ∃ b ∈ ring k, c.refcnt b = 0 := by
          obtain ⟨k', hk', hfree⟩ := hfree
          rw [hahead, List.mem_cons] at hk'
          rcases hk' with rfl | hk'
          · exact absurd hfree hhere
          · exact ⟨k', hk', hfree⟩
        obtain ⟨ended, hloop, houtcome, hvisited⟩ := ih (by omega) hlater
        refine ⟨{ ended with visited := k :: ended.visited }, ?_, houtcome, ?_⟩
        · intro fuel hfuel
          obtain ⟨fuel, rfl⟩ := Nat.exists_eq_succ_of_ne_zero (Nat.ne_zero_of_lt hfuel)
          rw [hround, bgetSteal_full h hfull]
          simp only [hloop fuel (by omega), Option.map_some]
        · rw [hahead]
          exact (List.prefix_cons_inj k).mpr hvisited

/-- Without a free buffer the loop searches every ring before it, and panics when the
test stops it at the home bucket. -/
theorem stealLoop_full (h : Rings c.links ring) (hlocked : ∀ k, locked k ↔ k = bucketOf blockno)
    (hhome : bucketOf blockno ≠ bucketOf 0) (hused : ∀ k, ∀ b ∈ ring k, 0 < c.refcnt b)
    {count : ℕ} (hcount : count ≤ 12) {fuel : ℕ} (hfuel : count < fuel) :
    stealLoop dev blockno fuel c locked (counter (bucketOf blockno) count)
      = some ⟨.panics, c, Function.update locked (bucketOf blockno) false,
          ahead (bucketOf blockno) count⟩ := by
  obtain ⟨fuel, rfl⟩ := Nat.exists_eq_succ_of_ne_zero (Nat.ne_zero_of_lt hfuel)
  induction count generalizing fuel with
  | zero =>
      rw [stealLoop, if_pos ((counter_zero _).mpr hhome)]
      rfl
  | succ count ih =>
      obtain ⟨k, hahead, hround⟩ := stealLoop_round c dev hlocked hcount
      obtain ⟨fuel, rfl⟩ :=
        Nat.exists_eq_succ_of_ne_zero (Nat.ne_zero_of_lt (Nat.lt_of_succ_lt_succ hfuel))
      rw [hround, bgetSteal_full h (hused k), hahead]
      simp only [ih (by omega) fuel (by omega), Option.map_some]

/-- From bucket 0 the loop never stops: it comes back as `NBUCKETS`, finds the lock of
bucket 0 taken by its own call and goes on with bucket 1. -/
theorem stealLoop_diverges (h : Rings c.links ring) (hhome : bucketOf blockno = bucketOf 0)
    (hused : ∀ k, ∀ b ∈ ring k, 0 < c.refcnt b) (fuel : ℕ) {findCount : ℕ}
    (hfind : findCount ≠ 0) : stealLoop dev blockno fuel c locked findCount = none := by
  induction fuel generalizing findCount with
  | zero => rfl
  | succ fuel ih =>
      have hne : findCount ≠ bucketOf blockno := by
        rw [hhome]
        exact hfind
      rw [stealLoop, if_neg hne, ih (Nat.succ_ne_zero _), bgetSteal_full h (hused _)]
      simp only [ih (Nat.succ_ne_zero _), Option.map_none, ite_self]

end Loop

/-! ## The call -/

section Call

variable {c : Cache nbuf} {ring : Fin nbuckets → List (Fin nbuf)} {dev blockno : ℕ}

theorem Rings.cached_iff (h : Rings c.links ring) : c.Cached dev blockno ↔
    ∃ b ∈ ring (bucketOf blockno), c.dev b = dev ∧ c.blockno b = blockno := by
  simp only [Cache.Cached, h.onRing_iff]

/-- What the search of the home bucket comes to. -/
theorem bgetHome_eval (h : Rings c.links ring) (dev blockno : ℕ) :
    (∃ b c', c.bgetHome dev blockno = some (some b, c') ∧ c'.dev b = dev ∧
      c'.blockno b = blockno ∧ (c.Cached dev blockno ∨ ∃ b, c.refcnt b = 0)) ∨
    (c.bgetHome dev blockno = some (none, c) ∧ ¬ c.Cached dev blockno ∧
      ∀ b ∈ ring (bucketOf blockno), 0 < c.refcnt b) := by
  obtain ⟨⟨result, c'⟩, hbody⟩ : ∃ result, c.bgetHome dev blockno = some result := by
    rw [Cache.bgetHome, h.scanNext, h.scanPrev]
    cases (ring (bucketOf blockno)).find? (c.hits dev blockno) with
    | some b => exact ⟨_, rfl⟩
    | none =>
        cases (ring (bucketOf blockno)).reverse.find? c.isFree with
        | some b => exact ⟨_, rfl⟩
        | none => exact ⟨_, rfl⟩
  rcases bgetHome_cases h hbody with
    ⟨b, hmem, hdev, hblockno, rfl, rfl⟩ | ⟨hmiss, ⟨b, -, hzero, rfl, rfl⟩ | ⟨rfl, rfl⟩⟩
  · exact Or.inl ⟨b, _, hbody, hdev, hblockno,
      Or.inl (h.cached_iff.mpr ⟨b, hmem, hdev, hblockno⟩)⟩
  · exact Or.inl ⟨b, _, hbody, Function.update_self .., Function.update_self ..,
      Or.inr ⟨b, hzero⟩⟩
  · refine Or.inr ⟨hbody, ?_, (bgetHome_none h hbody).2⟩
    rw [h.cached_iff]
    rintro ⟨b, hmem, hb⟩
    exact hmiss b hmem hb

/-- After the home bucket the call runs the loop with the lock of that bucket. -/
theorem bget_miss (fuel : ℕ) (hmiss : c.bgetHome dev blockno = some (none, c)) :
    bget fuel c unlocked dev blockno = stealLoop dev blockno fuel c
      (Function.update unlocked (bucketOf blockno) true) (counter (bucketOf blockno) 12) := by
  rw [bget, counter_start, hmiss]
  rfl

theorem locked_home (k : Fin nbuckets) :
    Function.update unlocked (bucketOf blockno) true k ↔ k = bucketOf blockno := by
  by_cases hk : k = bucketOf blockno <;> simp [hk, unlocked]

/-- For an uncached block of bucket 0 the call does not end when every buffer is in use. -/
theorem bget_diverges (h : Rings c.links ring) (hhome : blockno % nbuckets = 0)
    (hmiss : ¬ c.Cached dev blockno) (hused : c.AllUsed) (fuel : ℕ) :
    bget fuel c unlocked dev blockno = none := by
  rcases bgetHome_eval h dev blockno with ⟨-, -, -, -, -, hcached | ⟨b, hb⟩⟩ | ⟨hbody, -⟩
  · exact absurd hcached hmiss
  · exact absurd hb (Nat.ne_of_gt (hused b))
  · rw [bget_miss fuel hbody]
    exact stealLoop_diverges h (Fin.ext hhome) (fun _ b _ => hused b) fuel (Nat.succ_ne_zero _)

/-- **When `bget` meets its contract.**  A call that no other process disturbs ends as it
should, except one for a block of bucket 0 that is not cached while every buffer is in
use: it searches the other buckets round and round where it should panic. -/
theorem bget_answers_iff (c : Cache nbuf) (ring : Fin nbuckets → List (Fin nbuf))
    (h : Rings c.links ring) (hcover : ∀ b, ∃ k, b ∈ ring k) (dev blockno : ℕ) :
    c.Answers dev blockno ↔
      ¬ (blockno % nbuckets = 0 ∧ ¬ c.Cached dev blockno ∧ c.AllUsed) := by
  constructor
  · rintro ⟨ended, ⟨enough, hended⟩, -⟩ ⟨hhome, hmiss, hused⟩
    have hnone := hended enough le_rfl
    rw [bget_diverges h hhome hmiss hused] at hnone
    simp at hnone
  · intro hgood
    rcases bgetHome_eval h dev blockno with
      ⟨b, c', hbody, hdev, hblockno, hcause⟩ | ⟨hbody, hmiss, hhome⟩
    · refine ⟨⟨.returns b, c', unlocked, []⟩, ⟨0, fun fuel _ => ?_⟩,
        fun _ => ⟨b, rfl, hdev, hblockno⟩, ?_, List.nodup_nil, List.not_mem_nil⟩
      · rw [bget, hbody]
        rfl
      · simp only [reduceCtorEq, false_iff]
        rintro ⟨hmiss, hused⟩
        rcases hcause with hcached | ⟨b, hb⟩
        · exact hmiss hcached
        · exact absurd hb (Nat.ne_of_gt (hused b))
    · by_cases hfree : ∃ b, c.refcnt b = 0
      · obtain ⟨b, hb⟩ := hfree
        obtain ⟨k, hk⟩ := hcover b
        have hother : k ≠ bucketOf blockno := by
          rintro rfl
          exact absurd hb (Nat.ne_of_gt (hhome b hk))
        obtain ⟨ended, hloop, ⟨b', houtcome, hdev, hblockno⟩, hvisited⟩ :=
          @stealLoop_free _ c ring dev blockno _ h locked_home 12 le_rfl
            ⟨k, ((ahead_spec _).2 k).mpr hother, b, hk, hb⟩
        refine ⟨ended, ⟨12, fun fuel hfuel => ?_⟩, fun _ => ⟨b', houtcome, hdev, hblockno⟩, ?_,
          (ahead_spec _).1.sublist hvisited.sublist, fun hmem => ?_⟩
        · rw [bget_miss fuel hbody, hloop fuel hfuel]
        · rw [houtcome]
          simp only [reduceCtorEq, false_iff]
          rintro ⟨-, hused⟩
          exact absurd hb (Nat.ne_of_gt (hused b))
        · exact ((ahead_spec _).2 _).mp (hvisited.subset hmem) rfl
      · have hused : c.AllUsed := fun b => Nat.pos_of_ne_zero fun hb => hfree ⟨b, hb⟩
        have hnonzero : bucketOf blockno ≠ bucketOf 0 := fun heq =>
          hgood ⟨congrArg Fin.val heq, hmiss, hused⟩
        refine ⟨⟨.panics, c, Function.update (Function.update unlocked (bucketOf blockno) true)
          (bucketOf blockno) false, ahead (bucketOf blockno) 12⟩,
          ⟨13, fun fuel hfuel => ?_⟩, ?_, ?_,
          (ahead_spec _).1, fun hmem => ((ahead_spec _).2 _).mp hmem rfl⟩
        · rw [bget_miss fuel hbody]
          exact stealLoop_full h locked_home hnonzero (fun _ b _ => hused b) le_rfl hfuel
        · rintro (hcached | hfree')
          · exact absurd hcached hmiss
          · exact absurd hfree' hfree
        · simp only [true_iff]
          exact ⟨hmiss, hused⟩

end Call

section Example

/-- Thirty buffers in use, with the blocks 13 to 42 of device 1. -/
def usedCache : Cache 30 :=
  { binit ⟨id, id⟩ with dev := fun _ => 1, blockno := fun b => b + 13, refcnt := fun _ => 1 }

/-- With every buffer in use `bget(1, 0)` runs forever. -/
theorem not_bget_answers : ¬ ∀ (c : Cache 30) (ring : Fin nbuckets → List (Fin 30)),
    Rings c.links ring → (∀ b, ∃ k, b ∈ ring k) → ∀ dev blockno, c.Answers dev blockno := by
  intro hall
  obtain ⟨ring, hrings, hcover⟩ := @rings_binit 30 ⟨id, id⟩
  replace hrings : Rings usedCache.links ring := hrings
  obtain ⟨ended, ⟨enough, hended⟩, -⟩ := hall usedCache ring hrings hcover 1 0
  have hmiss : ¬ usedCache.Cached 1 0 := by
    rintro ⟨b, -, -, hb⟩
    exact absurd hb (Nat.succ_ne_zero _)
  have hnone := hended enough le_rfl
  rw [bget_diverges hrings rfl hmiss (fun _ => Nat.one_pos)] at hnone
  simp at hnone

/-- The same with buffer 1, of bucket 1, free. -/
def oneFree : Cache 30 := { usedCache with refcnt := fun i => if i.val = 1 then 0 else 1 }

/-- There `bget(1, 0)` finds nothing in bucket 0 and steals the buffer. -/
theorem bget_answers_stealing :
    (oneFree.bgetHome 1 0).map Prod.fst = some none ∧ oneFree.Answers 1 0 := by
  obtain ⟨ring, hrings, hcover⟩ := @rings_binit 30 ⟨id, id⟩
  replace hrings : Rings oneFree.links ring := hrings
  refine ⟨by decide +kernel, ?_⟩
  rw [bget_answers_iff _ ring hrings hcover]
  rintro ⟨-, -, hused⟩
  exact absurd (hused 1) (Nat.lt_irrefl 0)

end Example

end OperateSystem.Bio

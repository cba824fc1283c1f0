import OperateSystem.Core.Recency
import OperateSystem.Bio.Exhaustion
import OperateSystem.Bio.Transparency

/-!
# Each bucket ring is in order of recency

`brelse` moves a buffer to the front of its bucket when it drops the last reference, and
`bget` searches from the other end.  Buffers in use stay where they are and a stolen
buffer goes in front of its new ring while it is in use, so the free buffers among them
keep the order in which they were released.  Only `bunpin` can free a buffer without
moving it, so this holds of the runs without pins.
-/

namespace OperateSystem.Bio

open OperateSystem.History
open OperateSystem.Recency
open OperateSystem.Ring
open OperateSystem.Traces

variable {nbuf : ℕ} {Tid : Type*} [DecidableEq Tid] {Data : Type*}

/-- The call in progress is `bpin` or `bunpin`. -/
def Pc.pinning : Pc nbuf → Prop
  | .bpinAcquire _ _ | .bpinBody _ _ | .bunpinAcquire _ _ | .bunpinBody _ _ => True
  | _ => False

/-- No process is inside `bpin` or `bunpin`. -/
def Contents.Unpinned (s : Contents nbuf Tid Data) : Prop := ∀ t, ¬ (s.calls.pc t).pinning

/-- One step of processes that call `bread`, `bwrite` and `brelse` only.  The steps are
those of `Access`, and besides them a buffer may lose its last reference while its last
modification has not been written. -/
inductive Traffic : Contents nbuf Tid Data → Option (Event (ℕ × ℕ) Data) →
    Contents nbuf Tid Data → Prop
  | access {s event s'} (haccess : Access s event s') (hpins : s'.Unpinned) : Traffic s event s'
  | call {s calls} (hstep : Step s.calls calls)
      (hsleep : ∀ b t, calls.sleepLock b = some t → s.calls.sleepLock b = some t)
      (hinside : ∀ t, s.reading t ≠ .outside → calls.pc t = s.calls.pc t)
      (hpins : (s.withCalls calls).Unpinned) : Traffic s none (s.withCalls calls)

/-- The step drops the last reference of `b`. -/
def Frees (b : Fin nbuf) (s s' : Contents nbuf Tid Data) : Prop :=
  0 < s.calls.cache.refcnt b ∧ s'.calls.cache.refcnt b = 0

instance (b : Fin nbuf) (s s' : Contents nbuf Tid Data) : Decidable (Frees b s s') :=
  inferInstanceAs (Decidable (_ ∧ _))

/-- A run, latest step first. -/
abbrev Steps (nbuf : ℕ) (Tid Data : Type*) :=
  List (Contents nbuf Tid Data × Option (Event (ℕ × ℕ) Data) × Contents nbuf Tid Data)

/-- When the last reference of `b` was dropped last. -/
def releasedAt (steps : Steps nbuf Tid Data) (b : Fin nbuf) : WithBot ℕ :=
  lastTime (Frees b) steps

/-- `b` is free, on the ring of bucket `k`, and no free buffer there was released
before it. -/
structure Cache.LeastRecent (c : Cache nbuf) (released : Fin nbuf → WithBot ℕ)
    (k : Fin nbuckets) (b : Fin nbuf) : Prop where
  onRing : OnRing c.links k b
  free : c.refcnt b = 0
  oldest : ∀ b', OnRing c.links k b' → c.refcnt b' = 0 → released b ≤ released b'

section Bodies

variable {c c' : Cache nbuf} {ring : Fin nbuckets → List (Fin nbuf)} {dev blockno : ℕ}
  {b : Fin nbuf}

/-- A buffer that `bget` recycles in its home bucket is the last free one there. -/
theorem bgetHome_recycles (h : Rings c.links ring)
    (hbody : c.bgetHome dev blockno = some (some b, c')) (hmiss : c.hits dev blockno b = false) :
    (ring (bucketOf blockno)).reverse.find? c.isFree = some b := by
  simp only [Cache.bgetHome, h.scanNext, h.scanPrev] at hbody
  cases hhit : (ring (bucketOf blockno)).find? (c.hits dev blockno) with
  | some b' =>
      simp only [hhit, Option.some.injEq, Prod.mk.injEq] at hbody
      have htest := List.find?_some hhit
      rw [hbody.1, hmiss] at htest
      cases htest
  | none =>
      simp only [hhit] at hbody
      cases hfree : (ring (bucketOf blockno)).reverse.find? c.isFree with
      | some b' =>
          simp only [hfree, Option.some.injEq, Prod.mk.injEq] at hbody
          rw [hbody.1]
      | none => simp [hfree] at hbody

/-- So is one that it steals from another bucket. -/
theorem bgetSteal_recycles (h : Rings c.links ring) {findCount : Fin nbuckets}
    (hbody : c.bgetSteal dev blockno findCount = some (some b, c')) :
    (ring findCount).reverse.find? c.isFree = some b := by
  simp only [Cache.bgetSteal, h.scanPrev] at hbody
  cases hfree : (ring findCount).reverse.find? c.isFree with
  | some b' =>
      simp only [hfree, Option.some.injEq, Prod.mk.injEq] at hbody
      rw [hbody.1]
  | none => simp [hfree] at hbody

/-- The last free buffer of a ring that is in order of recency. -/
theorem Rings.leastRecent (h : Rings c.links ring) {released : Fin nbuf → WithBot ℕ}
    {k : Fin nbuckets} (hrecent : Recent c.isFree released (ring k))
    (hfind : (ring k).reverse.find? c.isFree = some b) : c.LeastRecent released k b := by
  refine ⟨?_, ?_, fun b' hring hfree => ?_⟩
  · rw [h.onRing_iff]
    exact List.mem_reverse.mp (List.mem_of_find?_eq_some hfind)
  · simpa [Cache.isFree] using List.find?_some hfind
  · rw [h.onRing_iff] at hring
    exact hrecent.oldest hfind b' hring (by simp [Cache.isFree, hfree])

end Bodies

section Steps

variable [Fintype Tid] {s s' : State nbuf Tid}

/-- What a step may do to the rings.  It leaves them and frees no buffer, or it moves one
buffer to the front of a ring: a buffer that is in use afterwards, or one that loses its
last reference in `brelse`. -/
inductive Shift (s s' : State nbuf Tid) (ring ring' : Fin nbuckets → List (Fin nbuf)) : Prop
  | stay (hring : ring' = ring) (hfree : ∀ b, s'.cache.refcnt b = 0 → s.cache.refcnt b = 0)
  | move {b : Fin nbuf} {cur : Fin nbuckets} (hring : ring' = movedToFront ring b cur)
      (hothers : ∀ b', b' ≠ b → s'.cache.refcnt b' = s.cache.refcnt b')
      (hmoved : 0 < s'.cache.refcnt b ∨ 0 < s.cache.refcnt b ∧ s'.cache.refcnt b = 0 ∧
        ∃ t k, s.pc t = .brelseBody b k)

omit [DecidableEq Tid] [Fintype Tid] in
theorem Shift.refl {ring : Fin nbuckets → List (Fin nbuf)}
    (hrefcnt : s'.cache.refcnt = s.cache.refcnt) : Shift s s' ring ring := by
  refine .stay rfl fun b hb => ?_
  rwa [hrefcnt] at hb

omit [DecidableEq Tid] [Fintype Tid] in
/-- One buffer gets references. -/
theorem Shift.taken {ring : Fin nbuckets → List (Fin nbuf)} {b : Fin nbuf} {n : ℕ}
    (hrefcnt : s'.cache.refcnt = Function.update s.cache.refcnt b (n + 1)) :
    Shift s s' ring ring := by
  refine .stay rfl fun b' hb' => ?_
  by_cases heq : b' = b
  · rw [hrefcnt, heq, Function.update_self] at hb'
    cases hb'
  · rwa [hrefcnt, Function.update_of_ne heq] at hb'

theorem Inv.shift (h : Inv s) (hstep : Step s s') (hpins : ∀ t, ¬ (s.pc t).pinning) :
    ∃ ring ring', Rings s.cache.links ring ∧ Rings s'.cache.links ring' ∧
      Shift s s' ring ring' := by
  obtain ⟨-, hrefs, ring, hid⟩ := h
  have hrings := hid.cache.rings
  cases hstep with
  | bgetFound hpc hbody =>
      rcases bgetHome_cases hrings hbody with
        ⟨b', -, -, -, -, rfl⟩ | ⟨-, ⟨b', -, -, -, rfl⟩ | ⟨-, rfl⟩⟩
      · exact ⟨ring, ring, hrings, hrings, .taken rfl⟩
      · exact ⟨ring, ring, hrings, hrings, .taken (n := 0) rfl⟩
      · exact ⟨ring, ring, hrings, hrings, .refl rfl⟩
  | bgetMiss hpc hbody =>
      obtain ⟨rfl, -⟩ := bgetHome_none hrings hbody
      exact ⟨ring, ring, hrings, hrings, .refl rfl⟩
  | @stealFound t dev blockno findCount b cache hpc hbody =>
      rcases bgetSteal_cases hrings hbody with ⟨b', hmem, -, -, rfl⟩ | ⟨-, rfl⟩
      · refine ⟨ring, _, hrings, hrings.moveToFront hmem (bucketOf blockno),
          .move rfl (fun b'' hne => Function.update_of_ne hne _ _) (Or.inl ?_)⟩
        simp [Cache.assign]
      · exact ⟨ring, ring, hrings, hrings, .refl rfl⟩
  | stealMiss hpc hbody =>
      obtain ⟨rfl, -⟩ := bgetSteal_none hrings hbody
      exact ⟨ring, ring, hrings, hrings, .refl rfl⟩
  | @brelseBody t b currentCount hpc =>
      have hpos := hrefs.pos_of_refs (t := t) (b := b) (by simp [hpc, Pc.refs, Pc.refOf])
      obtain ⟨k, hmem⟩ := hid.cache.cover b
      by_cases hlast : s.cache.refcnt b - 1 = 0
      · have hbody : s.cache.brelse b currentCount
            = (s.cache.decr b).moveToFront b currentCount := by
          simp [Cache.brelse, Cache.decr, hlast]
        refine ⟨ring, movedToFront ring b currentCount, hrings, ?_, ?_⟩
        · simp only [State.goto_cache, State.withCache_cache, hbody]
          exact hrings.moveToFront hmem currentCount
        · refine .move rfl (fun b' hne => ?_) (Or.inr ⟨hpos, ?_, t, currentCount, hpc⟩)
          · simp [hne]
          · simpa using hlast
      · have hbody : s.cache.brelse b currentCount = s.cache.decr b := by
          simp [Cache.brelse, Cache.decr, hlast]
        obtain ⟨n, hn⟩ := Nat.exists_eq_succ_of_ne_zero hlast
        refine ⟨ring, ring, hrings, ?_, .taken (b := b) (n := n) ?_⟩
        · simp only [State.goto_cache, State.withCache_cache, hbody]
          exact hrings
        · simp only [State.goto_cache, State.withCache_cache, Cache.brelse_refcnt, hn]
  | @bpinBody t b currentCount hpc => exact ⟨ring, ring, hrings, hrings, .taken rfl⟩
  | @bunpinBody t b currentCount hpc => exact (hpins t (by rw [hpc]; trivial)).elim
  | _ => exact ⟨ring, ring, hrings, hrings, .refl rfl⟩

omit [DecidableEq Tid] [Fintype Tid] in
/-- Only `brelse` frees a buffer. -/
theorem Shift.brelse {ring ring' : Fin nbuckets → List (Fin nbuf)} (h : Shift s s' ring ring')
    {b : Fin nbuf} (hpos : 0 < s.cache.refcnt b) (hzero : s'.cache.refcnt b = 0) :
    ∃ t k, s.pc t = .brelseBody b k := by
  cases h with
  | stay hring hfree => exact absurd (hfree b hzero) (Nat.ne_of_gt hpos)
  | @move b' cur hring hothers hmoved =>
      have heq : b = b' := by
        by_contra hne
        exact absurd ((hothers b hne).symm.trans hzero) (Nat.ne_of_gt hpos)
      subst heq
      rcases hmoved with hused | ⟨-, -, hbody⟩
      · exact absurd hzero (Nat.ne_of_gt hused)
      · exact hbody

end Steps

section Runs

variable [Fintype Tid] {s s' : Contents nbuf Tid Data} {event : Option (Event (ℕ × ℕ) Data)}
  {steps : Steps nbuf Tid Data}

omit [Fintype Tid] in
/-- A step is one of the calls, or it sets at most the valid flag of a buffer. -/
theorem Traffic.cases (h : Traffic s event s') : Step s.calls s'.calls ∨
    s'.calls = s.calls ∨ ∃ b, s'.calls = s.calls.withCache (s.calls.cache.setValid b) := by
  cases h with
  | access haccess hpins =>
      cases haccess with
      | call hstep hsleep hinside hclean => exact Or.inl hstep
      | bgetReturn hpc hfree => exact Or.inl (.bgetSleep hpc hfree)
      | mark hreading => exact Or.inr (Or.inr ⟨_, rfl⟩)
      | _ => exact Or.inr (Or.inl rfl)
  | call hstep hsleep hinside hpins => exact Or.inl hstep

omit [Fintype Tid] in
theorem Traffic.unpinned (h : Traffic s event s') : s'.Unpinned := by
  cases h with
  | access haccess hpins => exact hpins
  | call hstep hsleep hinside hpins => exact hpins

theorem Traffic.inv (h : Traffic s event s') (hinv : Inv s.calls) : Inv s'.calls := by
  rcases h.cases with hstep | heq | ⟨b, heq⟩
  · exact hinv.step hstep
  · rwa [heq]
  · rw [heq]
    exact hinv.setValid b

theorem Traffic.shift (h : Traffic s event s') (hinv : Inv s.calls) (hpins : s.Unpinned) :
    ∃ ring ring', Rings s.calls.cache.links ring ∧ Rings s'.calls.cache.links ring' ∧
      Shift s.calls s'.calls ring ring' := by
  obtain ⟨-, -, ring, hid⟩ := id hinv
  rcases h.cases with hstep | heq | ⟨b, heq⟩
  · exact hinv.shift hstep hpins
  · refine ⟨ring, ring, hid.cache.rings, ?_, .refl ?_⟩
    · rw [heq]
      exact hid.cache.rings
    · rw [heq]
  · refine ⟨ring, ring, hid.cache.rings, ?_, .refl ?_⟩
    · rw [heq]
      exact hid.cache.rings
    · rw [heq]
      rfl

omit [Fintype Tid] [DecidableEq Tid] in
theorem releasedAt_cons (b : Fin nbuf) : releasedAt ((s, event, s') :: steps) b
    = if Frees b s s' then ((steps.length : ℕ) : WithBot ℕ) else releasedAt steps b := rfl

/-- The free buffers on the rings are in order of recency. -/
structure Ordered (steps : Steps nbuf Tid Data) (s : Contents nbuf Tid Data) : Prop where
  inv : Inv s.calls
  unpinned : s.Unpinned
  recent : ∀ ring, Rings s.calls.cache.links ring →
    ∀ k, Recent s.calls.cache.isFree (releasedAt steps) (ring k)

/-- Every step keeps the order. -/
theorem Ordered.step (h : Ordered steps s) (hstep : Traffic s event s') :
    Ordered ((s, event, s') :: steps) s' := by
  obtain ⟨ring, ring', hrings, hrings', hshift⟩ := hstep.shift h.inv h.unpinned
  refine ⟨hstep.inv h.inv, hstep.unpinned, fun ring'' hrings'' k => ?_⟩
  rw [hrings'.unique (hrings''.cycle k)]
  have hold := h.recent ring hrings k
  have hsame : ∀ {x : Fin nbuf}, ¬ Frees x s s' →
      releasedAt ((s, event, s') :: steps) x = releasedAt steps x := by
    intro x hx
    rw [releasedAt_cons, if_neg hx]
  cases hshift with
  | stay hring hfree =>
      subst hring
      refine hold.restrict (List.Sublist.refl _) ?_
      intro x _ hx
      have hzero : s.calls.cache.refcnt x = 0 := hfree x (of_decide_eq_true hx)
      refine ⟨decide_eq_true hzero, hsame fun hfrees => ?_⟩
      exact absurd hzero (Nat.ne_of_gt hfrees.1)
  | @move b cur hring hothers hmoved =>
      subst hring
      -- The others are as free as they were, in the order in which they were.
      have hrest : ∀ j, Recent s'.calls.cache.isFree (releasedAt ((s, event, s') :: steps))
          ((ring j).erase b) := by
        intro j
        refine (h.recent ring hrings j).restrict List.erase_sublist ?_
        intro x hx hfree
        have hne : x ≠ b := ((hrings.nodup j).mem_erase_iff.mp hx).1
        have hzero : s.calls.cache.refcnt x = 0 :=
          (hothers x hne).symm.trans (of_decide_eq_true hfree)
        refine ⟨decide_eq_true hzero, hsame fun hfrees => ?_⟩
        exact absurd hzero (Nat.ne_of_gt hfrees.1)
      by_cases hk : k = cur
      · subst hk
        rw [movedToFront, Function.update_self]
        rcases hmoved with hused | ⟨hpos, hzero, -⟩
        · exact (hrest k).cons_used (decide_eq_false (Nat.ne_of_gt hused))
        · refine (hrest k).cons_latest fun x hx => ?_
          have hne : x ≠ b := ((hrings.nodup k).mem_erase_iff.mp hx).1
          have hkept : ¬ Frees x s s' := by
            rintro ⟨hxpos, hxzero⟩
            rw [hothers x hne] at hxzero
            omega
          rw [hsame hkept, releasedAt_cons, if_pos ⟨hpos, hzero⟩]
          exact lastTime_lt steps
      · rw [movedToFront, Function.update_of_ne hk]
        exact hrest k

/-- The order holds throughout a run that starts after `binit`, and only the lock region
of `brelse` drops a last reference. -/
theorem Ordered.run {garbage : Links (Node nbuf)} {wanted : Tid → ℕ × ℕ} {data : Fin nbuf → Data}
    {disk : ℕ × ℕ → Data}
    (h : Trace Traffic (Contents.boot garbage wanted data disk) steps s) : Ordered steps s ∧
      ∀ e ∈ steps, ∀ b, Frees b e.1 e.2.2 → ∃ t k, e.1.calls.pc t = .brelseBody b k := by
  induction h with
  | nil =>
      refine ⟨⟨inv_boot garbage, fun t => id, fun ring hrings k => ?_⟩, by simp⟩
      rw [recent_iff]
      exact List.pairwise_of_forall fun _ _ _ _ => Or.inl rfl
  | @snoc steps before after event htrace hstep ih =>
      obtain ⟨hordered, hfrees⟩ := ih
      refine ⟨hordered.step hstep, List.forall_mem_cons.mpr ⟨fun b hb => ?_, hfrees⟩⟩
      obtain ⟨ring, ring', -, -, hshift⟩ := hstep.shift hordered.inv hordered.unpinned
      exact hshift.brelse hb.1 hb.2

/-- **Recency of the buckets.**  In every state that processes can reach with `bread`,
`bwrite` and `brelse` on devices other than 0, the free buffers of each bucket appear from
head to tail in decreasing order of the time when a `brelse` dropped their last reference
last, and those that were never released come last.  So a buffer that `bget` recycles, in
its home bucket or from another one, is the least recently released one there. -/
theorem bucket_recency {garbage : Links (Node nbuf)} {wanted : Tid → ℕ × ℕ}
    {data : Fin nbuf → Data} {disk : ℕ × ℕ → Data}
    (htrace : Trace Traffic (Contents.boot garbage wanted data disk) steps s) :
    (∀ e ∈ steps, ∀ b, Frees b e.1 e.2.2 → ∃ t k, e.1.calls.pc t = .brelseBody b k) ∧
    (∀ k, ∃ bufs, Cycle s.calls.cache.links (.bucket k) (bufs.map .buf) ∧ bufs.Nodup ∧
      Recent s.calls.cache.isFree (releasedAt steps) bufs) ∧
    (∀ dev blockno b cache, s.calls.cache.bgetHome dev blockno = some (some b, cache) →
      s.calls.cache.hits dev blockno b = false →
      s.calls.cache.LeastRecent (releasedAt steps) (bucketOf blockno) b) ∧
    ∀ dev blockno k b cache, s.calls.cache.bgetSteal dev blockno k = some (some b, cache) →
      s.calls.cache.LeastRecent (releasedAt steps) k b := by
  obtain ⟨hordered, hfrees⟩ := Ordered.run htrace
  obtain ⟨-, -, ring, hid⟩ := hordered.inv
  have hrings := hid.cache.rings
  have hrecent := hordered.recent ring hrings
  refine ⟨hfrees, fun k => ⟨ring k, hrings.cycle k, hrings.nodup k, hrecent k⟩, ?_, ?_⟩
  · intro dev blockno b cache hbody hmiss
    exact hrings.leastRecent (hrecent _) (bgetHome_recycles hrings hbody hmiss)
  · intro dev blockno k b cache hbody
    exact hrings.leastRecent (hrecent k) (bgetSteal_recycles hrings hbody)

/-- A step of a call while the only process is outside `bread`. -/
theorem Traffic.quiet {s : Contents nbuf Unit Data} {calls : State nbuf Unit}
    (hstep : Step s.calls calls) (houtside : s.reading () = .outside)
    (hsleep : ∀ b t, calls.sleepLock b = some t → s.calls.sleepLock b = some t)
    (hpins : ¬ (calls.pc ()).pinning) : Traffic s none (s.withCalls calls) :=
  .call hstep hsleep (fun _ ht => absurd houtside ht) fun _ => hpins

/-- A process reads block 7 of device 1 into buffer 7 and releases it.  Of the two free
buffers of the bucket the next one to be recycled is number 20, which was never used. -/
theorem bucket_recency_released : ∃ (steps : Steps 30 Unit ℕ) (s : Contents 30 Unit ℕ),
    Trace Traffic (Contents.boot ⟨id, id⟩ (fun _ => (0, 0)) (fun _ => 9) fun _ => 3) steps s ∧
      releasedAt steps 7 = (11 : ℕ) ∧
      s.calls.cache.LeastRecent (releasedAt steps) (bucketOf 20) 20 := by
  have hbody : ((binit ⟨id, id⟩ : Cache 30).bgetHome 1 7).map
      (fun result => (result.1, result.2.refcnt 7, result.2.blockno 7, result.2.valid 7,
        ((result.2.setValid 7).brelse 7 (bucketOf (result.2.blockno 7))).hits 1 20 20)) =
        some (some 7, 1, 7, false, false) ∧
      ((binit ⟨id, id⟩ : Cache 30).bgetHome 1 7).map (fun result =>
        (((result.2.setValid 7).brelse 7 (bucketOf (result.2.blockno 7))).bgetHome 1 20).map
          Prod.fst) = some (some (some 20)) := by decide +kernel
  obtain ⟨hfirst, hsecond⟩ := hbody
  obtain ⟨⟨found, cache⟩, hbody, heq⟩ := Option.map_eq_some_iff.mp hfirst
  rw [hbody, Option.map_some] at hsecond
  simp only [Prod.mk.injEq] at heq
  obtain ⟨rfl, hrefcnt, hblockno, hvalid, hmiss⟩ := heq
  obtain ⟨⟨next, cache'⟩, hnext, rfl⟩ := Option.map_eq_some_iff.mp (Option.some.inj hsecond)
  have hrun : Trace Traffic (Contents.boot ⟨id, id⟩ (fun _ => (0, 0)) (fun _ => 9) (fun _ => 3)) []
    (Contents.boot ⟨id, id⟩ (fun _ => (0, 0)) (fun _ => 9) fun _ => 3 :
      Contents 30 Unit ℕ) := .nil
  replace hrun := hrun.snoc (.quiet (.bgetCall (t := ()) 1 7 rfl (by decide)) rfl
    (fun _ _ h => h) id)
  replace hrun := hrun.snoc (.quiet (.bgetAcquire (t := ()) rfl rfl) rfl (fun _ _ h => h) id)
  replace hrun := hrun.snoc (.quiet (.bgetFound (t := ()) rfl hbody) rfl (fun _ _ h => h) id)
  replace hrun := hrun.snoc (.quiet (.bgetRelease (t := ()) rfl) rfl (fun _ _ h => h) id)
  replace hrun := hrun.snoc (.access (.bgetReturn (t := ()) rfl rfl) fun _ => id)
  replace hrun := hrun.snoc (.access (.testInvalid (t := ()) rfl hvalid) fun _ => id)
  replace hrun := hrun.snoc (.access (.fill (t := ()) rfl) fun _ => id)
  replace hrun := hrun.snoc (.access (.mark (t := ()) rfl) fun _ => id)
  replace hrun := hrun.snoc (.access (.breadReturn (t := ()) rfl) fun _ => id)
  replace hrun := hrun.snoc (.quiet (.brelseCall (t := ()) (b := 7) rfl rfl) rfl
    (fun b t hb => by
      by_cases h7 : b = 7
      · simp [h7] at hb
      · simp [h7] at hb) id)
  have hunlocked : Function.update (Function.update (fun _ => none) (bucketOf 7) (some ()))
      (bucketOf 7) none (bucketOf (cache.blockno 7)) = none := by
    rw [hblockno, Function.update_self]
  replace hrun := hrun.snoc (.quiet (.brelseAcquire (t := ()) rfl hunlocked) rfl
    (fun _ _ h => h) id)
  replace hrun := hrun.snoc (.quiet (.brelseBody (t := ()) rfl) rfl (fun _ _ h => h) id)
  have hzero : ((cache.setValid 7).brelse 7 (bucketOf (cache.blockno 7))).refcnt 7 = 0 := by
    rw [Cache.brelse_refcnt, Function.update_self, Cache.setValid, hrefcnt]
  refine ⟨_, _, hrun, ?_, (bucket_recency hrun).2.2.1 1 20 20 cache' hnext hmiss⟩
  rw [releasedAt_cons, if_pos ⟨Nat.lt_of_lt_of_eq Nat.one_pos hrefcnt.symm, hzero⟩]
  rfl

end Runs

end OperateSystem.Bio

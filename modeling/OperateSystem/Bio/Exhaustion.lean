import OperateSystem.Core.Sweep
import OperateSystem.Bio.Deadlock

/-!
# When `bget` gives up

`bget` looks for a free buffer on its home ring and then on the other rings, one after
another, and panics when it is back at its home bucket.  It does not wait for a bucket
whose lock it sees taken, and it holds only the lock of the bucket it is looking at
besides that of its home.  So the panic does not mean that all buffers were in use at
one time; this module says what it does mean.
-/

namespace OperateSystem.Bio

open OperateSystem.Invariant
open OperateSystem.Ring

variable {nbuf : ℕ} {Tid : Type*} [DecidableEq Tid]

/-- Buffer `b` is on the ring of bucket `k`. -/
def OnRing (links : Links (Node nbuf)) (k : Fin nbuckets) (b : Fin nbuf) : Prop :=
  ∃ bufs : List (Fin nbuf), Cycle links (.bucket k) (bufs.map .buf) ∧ b ∈ bufs

/-- Every buffer on the ring of bucket `k` is in use. -/
def State.Full (s : State nbuf Tid) (k : Fin nbuckets) : Prop :=
  ∀ b, OnRing s.cache.links k b → 0 < s.cache.refcnt b

theorem Rings.onRing_iff {links : Links (Node nbuf)} {ring : Fin nbuckets → List (Fin nbuf)}
    (h : Rings links ring) (k : Fin nbuckets) (b : Fin nbuf) : OnRing links k b ↔ b ∈ ring k := by
  constructor
  · rintro ⟨bufs, hcycle, hmem⟩
    rwa [h.unique hcycle] at hmem
  · exact fun hmem => ⟨ring k, h.cycle k, hmem⟩

/-! ## The buckets behind a search -/

/-- The buckets that a search from bucket `home` has behind it when it comes to
`findCount`. -/
def Behind (home findCount k : Fin nbuckets) : Prop :=
  k = home ∨ if findCount ≤ home then home < k ∨ k < findCount else home < k ∧ k < findCount

/-- The buckets that a call of `bget` has behind it. -/
def Pc.inspected : Pc nbuf → Fin nbuckets → Prop
  | .stealTest _ blockno findCount, k => Behind (bucketOf blockno) (bucketOf findCount) k
  | .stealAcquire _ blockno findCount, k | .stealBody _ blockno findCount, k =>
      Behind (bucketOf blockno) findCount k
  | .stealNext _ blockno findCount, k =>
      Behind (bucketOf blockno) (bucketOf (findCount + 1)) k
  | .bgetFail _, _ => True
  | _, _ => False

theorem bucketOf_val (k : Fin nbuckets) : bucketOf k = k := Fin.ext (Nat.mod_eq_of_lt k.isLt)

theorem behind_iff {home findCount k : Fin nbuckets} : Behind home findCount k ↔
    (k : ℕ) = home ∨ ((findCount : ℕ) ≤ home ∧ ((home : ℕ) < k ∨ (k : ℕ) < findCount)) ∨
      ((home : ℕ) < findCount ∧ (home : ℕ) < k ∧ (k : ℕ) < findCount) := by
  simp only [Behind, Fin.ext_iff, Fin.le_def, Fin.lt_def]
  split <;> omega

theorem behind_home (home k : Fin nbuckets) : Behind home home k := by
  rw [behind_iff]
  omega

theorem bucketOf_succ (k : Fin nbuckets) : ((bucketOf (k + 1) : ℕ) = k + 1 ∧ (k : ℕ) < 12) ∨
    ((bucketOf (k + 1) : ℕ) = 0 ∧ (k : ℕ) = 12) := by
  have hk : (k : ℕ) < 13 := k.isLt
  change ((k + 1 : ℕ) % 13 = k + 1 ∧ _) ∨ ((k + 1 : ℕ) % 13 = 0 ∧ _)
  omega

/-- A search goes from one bucket to the next. -/
theorem Behind.next {home findCount k : Fin nbuckets}
    (h : Behind home (bucketOf (findCount + 1)) k) : Behind home findCount k ∨ k = findCount := by
  have hk : (k : ℕ) < 13 := k.isLt
  have hsucc := bucketOf_succ findCount
  rw [behind_iff] at h
  rw [behind_iff, Fin.ext_iff]
  omega

/-- Right after the home bucket nothing else is behind the search. -/
theorem Behind.first {home k : Fin nbuckets} (h : Behind home (bucketOf (home + 1)) k) :
    k = home := by
  have hk : (k : ℕ) < 13 := k.isLt
  have hsucc := bucketOf_succ home
  rw [behind_iff] at h
  rw [Fin.ext_iff]
  omega

/-! ## Searches that find nothing -/

section Bodies

variable {c c' : Cache nbuf} {ring : Fin nbuckets → List (Fin nbuf)}

theorem bgetHome_none (h : Rings c.links ring) {dev blockno : ℕ}
    (hbody : c.bgetHome dev blockno = some (none, c')) :
    c' = c ∧ ∀ b ∈ ring (bucketOf blockno), 0 < c.refcnt b := by
  simp only [Cache.bgetHome, h.scanNext, h.scanPrev] at hbody
  split at hbody
  · cases hbody
  · cases hbody
  · split at hbody
    · cases hbody
    · cases hbody
    · rename_i hfree
      simp only [Option.some.injEq, Prod.mk.injEq, true_and] at hbody
      refine ⟨hbody.symm, fun b hb => ?_⟩
      have hnot := List.find?_eq_none.mp (Option.some.inj hfree) b (List.mem_reverse.mpr hb)
      simpa [Cache.isFree, Nat.pos_iff_ne_zero] using hnot

theorem bgetSteal_none (h : Rings c.links ring) {dev blockno : ℕ} {findCount : Fin nbuckets}
    (hbody : c.bgetSteal dev blockno findCount = some (none, c')) :
    c' = c ∧ ∀ b ∈ ring findCount, 0 < c.refcnt b := by
  simp only [Cache.bgetSteal, h.scanPrev] at hbody
  split at hbody
  · cases hbody
  · cases hbody
  · rename_i hfree
    simp only [Option.some.injEq, Prod.mk.injEq, true_and] at hbody
    refine ⟨hbody.symm, fun b hb => ?_⟩
    have hnot := List.find?_eq_none.mp (Option.some.inj hfree) b (List.mem_reverse.mpr hb)
    simpa [Cache.isFree, Nat.pos_iff_ne_zero] using hnot

end Bodies

/-! ## Steps of a search -/

/-- The step in which `t` reads `lock[k].locked`, finds the lock taken by another process and
leaves the bucket behind. -/
structure Skips (t : Tid) (before after : State nbuf Tid) (k : Fin nbuckets) : Prop where
  reads : ∃ dev blockno findCount,
    before.pc t = .stealTest dev blockno findCount ∧ bucketOf findCount = k
  locked : ∃ u, u ≠ t ∧ before.lock k = some u
  ahead : ¬ (before.pc t).inspected k
  behind : (after.pc t).inspected k

/-- A buffer on ring `k` loses its last reference. -/
def Drops (before after : State nbuf Tid) (k : Fin nbuckets) : Prop :=
  ∃ b, OnRing before.cache.links k b ∧ 0 < before.cache.refcnt b ∧ after.cache.refcnt b = 0

section Steps

variable [Fintype Tid] {s s' : State nbuf Tid}

/-- A buffer that a step puts on a ring is in use. -/
theorem Inv.onRing (h : Inv s) (hstep : Step s s') {k : Fin nbuckets} {b : Fin nbuf}
    (hring : OnRing s'.cache.links k b) : OnRing s.cache.links k b ∨ 0 < s'.cache.refcnt b := by
  obtain ⟨-, hrefs, ring, hid⟩ := h
  cases hstep with
  | bgetFound hpc hbody =>
      rcases bgetHome_cases hid.cache.rings hbody with
        ⟨b', -, -, -, -, rfl⟩ | ⟨-, ⟨b', -, -, -, rfl⟩ | ⟨-, rfl⟩⟩
      · exact Or.inl hring
      · exact Or.inl hring
      · exact Or.inl hring
  | bgetMiss hpc hbody =>
      obtain ⟨rfl, -⟩ := bgetHome_none hid.cache.rings hbody
      exact Or.inl hring
  | @stealFound t dev blockno findCount b' cache hpc hbody =>
      rcases bgetSteal_cases hid.cache.rings hbody with ⟨b'', hmem, -, heq, rfl⟩ | ⟨heq, -⟩
      · obtain rfl := Option.some.inj heq
        have hmoved := hid.cache.rings.moveToFront hmem (bucketOf blockno)
        by_cases hb : b = b'
        · subst hb
          exact Or.inr (by simp [Cache.assign])
        · rw [hid.cache.rings.onRing_iff]
          have hin := (hmoved.onRing_iff k b).mp hring
          rw [mem_movedToFront hid.cache.rings] at hin
          exact Or.inl (hin.resolve_left fun hboth => hb hboth.1).2
      · simp at heq
  | stealMiss hpc hbody =>
      obtain ⟨rfl, -⟩ := bgetSteal_none hid.cache.rings hbody
      exact Or.inl hring
  | @brelseBody t b' currentCount hpc =>
      obtain ⟨hdev, rfl⟩ := (hid.pcs t).released b' currentCount (Or.inr hpc)
      simp only [Cache.brelse, State.goto_cache, State.withCache_cache] at hring
      split at hring
      · have hmem := hid.cache.placed b' hdev
        have hin := ((hid.cache.rings.moveToFront hmem _).onRing_iff k b).mp hring
        rw [mem_movedToFront hid.cache.rings] at hin
        rw [hid.cache.rings.onRing_iff]
        rcases hin with ⟨rfl, rfl⟩ | ⟨-, hin⟩
        · exact Or.inl hmem
        · exact Or.inl hin
      · exact Or.inl hring
  | _ => exact Or.inl hring

/-- A full bucket stays full unless one of its buffers loses its last reference. -/
theorem Inv.full_or_drops (h : Inv s) (hstep : Step s s') {k : Fin nbuckets} (hfull : s.Full k) :
    s'.Full k ∨ Drops s s' k := by
  by_cases hdrops : Drops s s' k
  · exact Or.inr hdrops
  · refine Or.inl fun b hb => ?_
    rcases h.onRing hstep hb with hold | hpos
    · by_contra hzero
      exact hdrops ⟨b, hold, hfull b hold, Nat.eq_zero_of_not_pos hzero⟩
    · exact hpos

omit [Fintype Tid] in
theorem update_inspected {t u : Tid} {pc : Pc nbuf} {k : Fin nbuckets} {found : Prop}
    (hnew : t = u → pc.inspected k → (s.pc u).inspected k ∨ found)
    (hinspected : (Function.update s.pc u pc t).inspected k) :
    (s.pc t).inspected k ∨ found := by
  by_cases ht : t = u
  · subst ht
    rw [Function.update_self] at hinspected
    exact hnew rfl hinspected
  · rw [Function.update_of_ne ht] at hinspected
    exact Or.inl hinspected

/-- A search leaves a bucket behind when it has found it full, or when it has seen its
lock taken. -/
theorem Inv.inspected (h : Inv s) (hheld : HeldInside s) (hstep : Step s s') {t : Tid}
    {k : Fin nbuckets} (hinspected : (s'.pc t).inspected k) :
    (s.pc t).inspected k ∨ (s.Full k ∧ s'.Full k) ∨ Skips t s s' k := by
  by_cases hahead : (s.pc t).inspected k
  · exact Or.inl hahead
  obtain ⟨-, -, ring, hid⟩ := h
  have hrings := hid.cache.rings
  -- A body that finds nothing leaves the cache as it is.
  have hfull : (∀ b ∈ ring k, 0 < s.cache.refcnt b) → s.Full k := fun hpos b hb =>
    hpos b ((hrings.onRing_iff k b).mp hb)
  cases hstep with
  | bgetMiss hpc hbody =>
      refine update_inspected ?_ hinspected
      rintro - hbehind
      obtain ⟨rfl, hpos⟩ := bgetHome_none hrings hbody
      obtain rfl := Behind.first hbehind
      exact Or.inr (Or.inl ⟨hfull hpos, hfull hpos⟩)
  | stealEnd hpc hend =>
      refine update_inspected ?_ hinspected
      rintro - -
      refine Or.inl ?_
      rw [hpc, Pc.inspected, hend, bucketOf_val]
      exact behind_home _ k
  | @stealSkip u dev blockno findCount hpc hgo hlocked =>
      refine update_inspected ?_ hinspected
      rintro rfl hbehind
      rcases Behind.next hbehind with hold | rfl
      · exact Or.inl (by rwa [hpc])
      · by_cases hhome : bucketOf findCount = bucketOf blockno
        · refine Or.inl ?_
          rw [hpc]
          exact Or.inl hhome
        · obtain ⟨u, hu⟩ := Option.isSome_iff_exists.mp hlocked
          refine Or.inr (Or.inr
            ⟨⟨dev, blockno, findCount, hpc, rfl⟩, ⟨u, ?_, hu⟩, hahead, hinspected⟩)
          rintro rfl
          have hin := hheld u _ hu
          rw [hpc] at hin
          exact hhome hin
  | stealTry hpc hgo hfree =>
      refine update_inspected ?_ hinspected
      rintro - hbehind
      exact Or.inl (by rwa [hpc])
  | stealAcquire hpc hfree =>
      refine update_inspected ?_ hinspected
      rintro - hbehind
      exact Or.inl (by rwa [hpc])
  | stealMiss hpc hbody =>
      refine update_inspected ?_ hinspected
      rintro - hbehind
      obtain ⟨rfl, hpos⟩ := bgetSteal_none hrings hbody
      rcases Behind.next hbehind with hold | rfl
      · exact Or.inl (by rwa [hpc])
      · exact Or.inr (Or.inl ⟨hfull hpos, hfull hpos⟩)
  | stealNext hpc =>
      refine update_inspected ?_ hinspected
      rintro - hbehind
      exact Or.inl (by rwa [hpc])
  | _ => exact update_inspected (by simp [Pc.inspected]) hinspected

end Steps

/-! ## The panic -/

/-- A call of `bget` by process `t` from its first state to one before it returns, with
the states of the whole system in between. -/
structure BgetCall (t : Tid) (start : State nbuf Tid) (visited : List (State nbuf Tid))
    (last : State nbuf Tid) : Prop where
  path : Sweep.Path Step start visited last
  called : ∃ dev blockno, start.pc t = .bgetAcquire dev blockno
  inside : ∀ s ∈ visited, s.pc t ≠ .idle

section Panic

variable [Fintype Tid]

/-- **What a panic of `bget` means.**  In every call that is about to panic, each bucket
was at some instant of the call full or locked by another process.  And at one and the
same instant of it all buffers were in use, unless the call passed by a bucket that
another process had locked, or a buffer on a ring that it had already left behind lost
its last reference. -/
theorem bget_panics_full {garbage : Links (Node nbuf)} {t : Tid} {start last : State nbuf Tid}
    {visited : List (State nbuf Tid)}
    (hreach : Reachable Step (State.boot (binit garbage)) start)
    (hcall : BgetCall t start visited last) {currentCount : Fin nbuckets}
    (hfail : last.pc t = .bgetFail currentCount) :
    (∀ k, ∃ s ∈ visited, s.Full k ∨ ∃ u, u ≠ t ∧ s.lock k = some u) ∧
      ((∃ s ∈ visited, ∀ b, 0 < s.cache.refcnt b) ∨
        ∃ before after k, Sweep.Consecutive visited before after ∧
          (Skips t before after k ∨ ((before.pc t).inspected k ∧ Drops before after k))) := by
  have hinv : ∀ s ∈ visited, Inv s ∧ HeldInside s := by
    refine hcall.path.invariant (fun s => Inv s ∧ HeldInside s)
      ⟨reachable_inv hreach, reachable_heldInside hreach⟩ ?_
    rintro before after ⟨hinv, hheld⟩ hstep
    exact ⟨hinv.step hstep, hheld.step hstep⟩
  have hstart : ∀ k, ¬ (start.pc t).inspected k := by
    obtain ⟨dev, blockno, hpc⟩ := hcall.called
    simp [hpc, Pc.inspected]
  have hall : ∀ k, (last.pc t).inspected k := by simp [hfail, Pc.inspected]
  constructor
  · intro k
    refine hcall.path.exists_observed (fun s k => (s.pc t).inspected k)
      (fun s k => s.Full k ∨ ∃ u, u ≠ t ∧ s.lock k = some u) hstart ?_ k (hall k)
    intro before hmem after hstep k hinspected
    obtain ⟨hbefore, hheld⟩ := hinv before hmem
    rcases hbefore.inspected hheld hstep hinspected with hold | ⟨hfull, -⟩ | hskip
    · exact Or.inl hold
    · exact Or.inr (Or.inl hfull)
    · exact Or.inr (Or.inr hskip.locked)
  · have hsweep := hcall.path.clear_or_disturbed (fun s k => (s.pc t).inspected k)
      (fun s k => s.Full k) (fun before after k =>
        Skips t before after k ∨ ((before.pc t).inspected k ∧ Drops before after k)) hstart ?_
    · rcases hsweep with hclear | hdisturbed
      · refine Or.inl ⟨last, hcall.path.last_mem, fun b => ?_⟩
        obtain ⟨⟨-, -, ring, hid⟩, -⟩ := hinv last hcall.path.last_mem
        obtain ⟨k, hk⟩ := hid.cache.cover b
        exact hclear k (hall k) b ((hid.cache.rings.onRing_iff k b).mpr hk)
      · exact Or.inr hdisturbed
    · intro before hmem after hstep k hinspected hclear
      obtain ⟨hbefore, hheld⟩ := hinv before hmem
      rcases hbefore.inspected hheld hstep hinspected with hold | ⟨-, hfull⟩ | hskip
      · rcases hbefore.full_or_drops hstep (hclear hold) with hfull | hdrops
        · exact Or.inl hfull
        · exact Or.inr (Or.inr ⟨hold, hdrops⟩)
      · exact Or.inl hfull
      · exact Or.inr (Or.inl hskip)

end Panic

/-! ## A panic with free buffers -/

section Spurious

variable {start s : State nbuf Tid} {t : Tid}

theorem State.goto_pc_self (s : State nbuf Tid) (t : Tid) (pc : Pc nbuf) :
    (s.goto t pc).pc t = pc :=
  Function.update_self ..

theorem State.goto_goto (s : State nbuf Tid) (t : Tid) (pc pc' : Pc nbuf) :
    (s.goto t pc).goto t pc' = s.goto t pc' := by
  simp [State.goto]

/-- A whole call of `bget` that finds a buffer on its home ring. -/
theorem reachable_bget {dev blockno : ℕ} {b : Fin nbuf} {cache : Cache nbuf}
    (hdev : dev ≠ 0) (hreach : Reachable Step start s) (hpc : s.pc t = .idle)
    (hlock : s.lock (bucketOf blockno) = none)
    (hbody : s.cache.bgetHome dev blockno = some (some b, cache)) (hsleep : s.sleepLock b = none) :
    ∃ s', Reachable Step start s' ∧ s'.cache = cache ∧ s'.lock = s.lock ∧ s'.pc = s.pc ∧
      s'.sleepLock = Function.update s.sleepLock b (some t) := by
  replace hreach := hreach.tail (.bgetCall dev blockno hpc hdev)
  replace hreach := hreach.tail (.bgetAcquire (State.goto_pc_self ..) hlock)
  replace hreach := hreach.tail (.bgetFound (State.goto_pc_self ..) hbody)
  replace hreach := hreach.tail (.bgetRelease (State.goto_pc_self ..))
  replace hreach := hreach.tail (.bgetSleep (State.goto_pc_self ..) hsleep)
  refine ⟨_, hreach, rfl, ?_, ?_, rfl⟩
  · change Function.update (Function.update s.lock _ _) _ none = s.lock
    rw [Function.update_idem, ← hlock, Function.update_eq_self]
  · change ((((((s.goto t _).goto t _).goto t _).goto t _).goto t .idle).pc) = s.pc
    rw [State.goto_goto, State.goto_goto, State.goto_goto, State.goto_goto, ← hpc]
    exact Function.update_eq_self ..

end Spurious

section Example

/-- Process `bucketOf 40` has all three buffers of bucket 1 and buffer 0 is free. -/
theorem exists_bucket_full : ∃ s : State 30 (Fin nbuckets),
    Reachable Step (State.boot (binit ⟨id, id⟩)) s ∧ (∀ t, s.pc t = .idle) ∧
      (∀ k, s.lock k = none) ∧ s.cache.bgetHome 1 40 = some (none, s.cache) ∧
      s.cache.refcnt 0 = 0 := by
  have hbodies : (((binit ⟨id, id⟩ : Cache 30).bgetHome 1 1).bind fun first =>
      (first.2.bgetHome 1 14).bind fun second => (second.2.bgetHome 1 27).bind fun third =>
        (third.2.bgetHome 1 40).map fun fourth =>
          (first.1, second.1, third.1, fourth.1, third.2.refcnt 0)) =
        some (some 1, some 14, some 27, none, 0) := by decide +kernel
  obtain ⟨⟨found, first⟩, hfirst, hbodies⟩ := Option.bind_eq_some_iff.mp hbodies
  obtain ⟨⟨found', second⟩, hsecond, hbodies⟩ := Option.bind_eq_some_iff.mp hbodies
  obtain ⟨⟨found'', third⟩, hthird, hbodies⟩ := Option.bind_eq_some_iff.mp hbodies
  obtain ⟨⟨missed, fourth⟩, hfourth, hbodies⟩ := Option.map_eq_some_iff.mp hbodies
  simp only [Prod.mk.injEq] at hbodies hfirst hsecond hthird hfourth
  obtain ⟨rfl, rfl, rfl, rfl, hfree⟩ := hbodies
  have hboot := Relation.ReflTransGen.refl (r := Step)
    (a := (State.boot (binit ⟨id, id⟩) : State 30 (Fin nbuckets)))
  obtain ⟨s, hreach, rfl, hlock, hpc, hsleep⟩ := reachable_bget (t := bucketOf 40)
    Nat.one_ne_zero hboot rfl rfl hfirst rfl
  obtain ⟨s', hreach, rfl, hlock', hpc', hsleep'⟩ := reachable_bget (t := bucketOf 40)
    Nat.one_ne_zero hreach (by rw [hpc]; rfl) (by rw [hlock]; rfl) hsecond (by rw [hsleep]; rfl)
  obtain ⟨s'', hreach, rfl, hlock'', hpc'', -⟩ := reachable_bget (t := bucketOf 40)
    Nat.one_ne_zero hreach (by rw [hpc', hpc]; rfl) (by rw [hlock', hlock]; rfl) hthird
    (by rw [hsleep', hsleep]; rfl)
  refine ⟨s'', hreach, fun t => ?_, fun k => ?_, ?_, hfree⟩
  · rw [hpc'', hpc', hpc]
    rfl
  · rw [hlock'', hlock', hlock]
    rfl
  · obtain ⟨-, -, ring, hid⟩ := reachable_inv hreach
    rw [hfourth, (bgetHome_none hid.cache.rings hfourth).1]

/-- Every process but 1 stands inside the lock region of the bucket of its number. -/
theorem exists_buckets_locked {start s : State nbuf (Fin nbuckets)}
    (hreach : Reachable Step start s) (hpc : ∀ t, s.pc t = .idle) (hlock : ∀ k, s.lock k = none)
    (taken : Finset (Fin nbuckets)) :
    ∃ s', Reachable Step start s' ∧ s'.cache = s.cache ∧
      ∀ k, if k ∈ taken then s'.lock k = some k else s'.lock k = none ∧ s'.pc k = .idle := by
  induction taken using Finset.induction_on with
  | empty => exact ⟨s, hreach, rfl, fun k => by simp [hpc, hlock]⟩
  | insert t taken hnot ih =>
      obtain ⟨s', hreach', hcache, htaken⟩ := ih
      have ht := htaken t
      rw [if_neg hnot] at ht
      replace hreach' := hreach'.tail (.bgetCall 1 t ht.2 Nat.one_ne_zero)
      replace hreach' := hreach'.tail (.bgetAcquire (State.goto_pc_self ..)
        (by rw [bucketOf_val]; exact ht.1))
      refine ⟨_, hreach', hcache, fun k => ?_⟩
      by_cases hk : k = t
      · subst hk
        simp [bucketOf_val]
      · have hold := htaken k
        simpa [bucketOf_val, hk] using hold

/-- Inside a call of process 1, with a free buffer. -/
def BufferLeft (s : State 30 (Fin nbuckets)) : Prop :=
  s.pc (bucketOf 40) ≠ .idle ∧ s.cache.refcnt 0 = 0

/-- The stealing loop of process 1 when every lock is taken. -/
theorem through_stealSkip {start s : State 30 (Fin nbuckets)} (hfree : s.cache.refcnt 0 = 0)
    (hlocked : ∀ k, (s.lock k).isSome)
    (h : Sweep.Through Step BufferLeft start (s.goto (bucketOf 40) (.stealTest 1 40 2))) :
    Sweep.Through Step BufferLeft start (s.goto (bucketOf 40) (.bgetFail (bucketOf 40))) := by
  have hloop : ∀ findCount, 2 ≤ findCount → findCount ≤ 13 →
      Sweep.Through Step BufferLeft start (s.goto (bucketOf 40) (.stealTest 1 40 findCount)) := by
    intro findCount hle
    induction findCount, hle using Nat.le_induction with
    | base => exact fun _ => h
    | succ findCount hle ih =>
        intro hlt
        have hmod : (bucketOf findCount : ℕ) = findCount := Nat.mod_eq_of_lt (by
          rw [nbuckets]
          omega)
        have hgo : findCount ≠ bucketOf 40 := by
          change findCount ≠ 1
          omega
        have hstep := Step.stealSkip (s.goto_pc_self (bucketOf 40) (.stealTest 1 40 findCount)) hgo
          (hlocked _)
        rw [State.goto_goto, hmod] at hstep
        exact (ih (by omega)).tail hstep ⟨by simp, hfree⟩
  have hlast := hloop 13 (by decide) le_rfl
  replace hlast := hlast.tail (.stealSkip (State.goto_pc_self ..) (by decide) (hlocked _))
    ⟨by simp, hfree⟩
  replace hlast := hlast.tail (.stealEnd (State.goto_pc_self ..) (by decide)) ⟨by simp, hfree⟩
  rwa [State.goto_goto, State.goto_goto] at hlast

/-- Process 1 looks for a free buffer while the other processes are inside the lock
regions of the other buckets, where there are free buffers. -/
theorem exists_spurious_panic : ∃ (start last : State 30 (Fin nbuckets))
    (visited : List (State 30 (Fin nbuckets))),
    Reachable Step (State.boot (binit ⟨id, id⟩)) start ∧ BgetCall (bucketOf 40) start visited last ∧
      last.pc (bucketOf 40) = .bgetFail (bucketOf 40) ∧ ∀ s ∈ visited, s.cache.refcnt 0 = 0 := by
  obtain ⟨s, hreach, hpc, hlock, hbody, hfree⟩ := exists_bucket_full
  obtain ⟨s', hreach, hcache, htaken⟩ := exists_buckets_locked hreach hpc hlock
    (Finset.univ.erase (bucketOf 40))
  have hfree' : s'.cache.refcnt 0 = 0 := by rw [hcache, hfree]
  have hhome : s'.lock (bucketOf 40) = none ∧ s'.pc (bucketOf 40) = .idle := by
    simpa using htaken (bucketOf 40)
  have hothers : ∀ k, k ≠ bucketOf 40 → s'.lock k = some k := by
    intro k hk
    simpa [hk] using htaken k
  replace hreach := hreach.tail (.bgetCall 1 40 hhome.2 Nat.one_ne_zero)
  have hpath : Sweep.Through Step BufferLeft (s'.goto (bucketOf 40) (.bgetAcquire 1 40))
      (s'.goto (bucketOf 40) (.bgetAcquire 1 40)) := .refl ⟨by simp, hfree'⟩
  replace hpath := hpath.tail (.bgetAcquire (State.goto_pc_self ..) hhome.1) ⟨by simp, hfree'⟩
  replace hpath := hpath.tail (.bgetMiss (State.goto_pc_self ..)
    (by rw [← hcache] at hbody; exact hbody)) ⟨by simp, hfree'⟩
  have hlocked : ∀ k, ((s'.setLock (bucketOf 40) (some (bucketOf 40))).lock k).isSome := by
    intro k
    by_cases hk : k = bucketOf 40
    · simp [hk]
    · simp [hk, hothers k hk]
  have hloop : Sweep.Through Step BufferLeft (s'.goto (bucketOf 40) (.bgetAcquire 1 40))
      ((s'.setLock (bucketOf 40) (some (bucketOf 40))).goto (bucketOf 40)
        (.stealTest 1 40 2)) := by
    have hnext : (bucketOf 40 + 1 : ℕ) = 2 := rfl
    rw [hnext] at hpath
    simpa [State.goto, State.setLock, State.withCache] using hpath
  obtain ⟨visited, hpath, hleft⟩ := through_stealSkip (by exact hfree') hlocked hloop
  exact ⟨_, _, visited, hreach, ⟨hpath, ⟨1, 40, State.goto_pc_self ..⟩, fun s hs => (hleft s hs).1⟩,
    State.goto_pc_self .., fun s hs => (hleft s hs).2⟩

/-- A call of `bget` may panic although some buffer is free at every instant of it. -/
theorem bget_panics_not_full : ¬ ∀ (start last : State 30 (Fin nbuckets))
    (visited : List (State 30 (Fin nbuckets))),
    Reachable Step (State.boot (binit ⟨id, id⟩)) start →
      BgetCall (bucketOf 40) start visited last →
      last.pc (bucketOf 40) = .bgetFail (bucketOf 40) →
      ∃ s ∈ visited, ∀ b, 0 < s.cache.refcnt b := by
  intro hclaim
  obtain ⟨start, last, visited, hreach, hcall, hfail, hfree⟩ := exists_spurious_panic
  obtain ⟨s, hs, hpos⟩ := hclaim start last visited hreach hcall hfail
  have hzero := hfree s hs
  have hused := hpos 0
  omega

theorem bget_panics_full_locked : ∃ (start last : State 30 (Fin nbuckets))
    (visited : List (State 30 (Fin nbuckets))),
    Reachable Step (State.boot (binit ⟨id, id⟩)) start ∧
      BgetCall (bucketOf 40) start visited last ∧
      last.pc (bucketOf 40) = .bgetFail (bucketOf 40) ∧
      ∀ k, ∃ s ∈ visited, s.Full k ∨ ∃ u, u ≠ bucketOf 40 ∧ s.lock k = some u := by
  obtain ⟨start, last, visited, hreach, hcall, hfail, -⟩ := exists_spurious_panic
  exact ⟨start, last, visited, hreach, hcall, hfail, (bget_panics_full hreach hcall hfail).1⟩

end Example

end OperateSystem.Bio

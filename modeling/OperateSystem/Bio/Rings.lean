import Mathlib.Data.Fintype.Card
import OperateSystem.Bio.Cache

/-!
# The bucket rings

`Rings links ring` says that the links of the cache are the rings listed by
`ring`: every bucket head starts a well-formed cycle through the listed
buffers, and no buffer is listed twice.  The walks of `bget` then are list
searches, and moving a buffer to the front of a bucket is a list operation.
-/

namespace OperateSystem.Bio

open OperateSystem.Ring

variable {nbuf : ℕ}

/-- The links form the listed rings. -/
structure Rings (links : Links (Node nbuf)) (ring : Fin nbuckets → List (Fin nbuf)) :
    Prop where
  cycle : ∀ k, Cycle links (.bucket k) ((ring k).map .buf)
  nodup : ∀ k, (ring k).Nodup
  disjoint : ∀ b k k', b ∈ ring k → b ∈ ring k' → k = k'

theorem Rings.nodup_nodes {links : Links (Node nbuf)}
    {ring : Fin nbuckets → List (Fin nbuf)} (h : Rings links ring) (k : Fin nbuckets) :
    (Node.bucket k :: (ring k).map Node.buf).Nodup := by
  refine List.nodup_cons.mpr ⟨by simp, (h.nodup k).map ?_⟩
  intro left right heq
  simpa using heq

theorem Rings.disjoint_nodes {links : Links (Node nbuf)}
    {ring : Fin nbuckets → List (Fin nbuf)} (h : Rings links ring)
    {k k' : Fin nbuckets} (hne : k ≠ k') :
    ∀ node ∈ Node.bucket k :: (ring k).map Node.buf,
      node ∉ Node.bucket k' :: (ring k').map Node.buf := by
  intro node hnode hnode'
  cases node with
  | buf b =>
      simp only [List.mem_cons, reduceCtorEq, List.mem_map, Node.buf.injEq,
        exists_eq_right, false_or] at hnode hnode'
      exact hne (h.disjoint b k k' hnode hnode')
  | bucket j =>
      simp only [List.mem_cons, Node.bucket.injEq, List.mem_map, reduceCtorEq,
        and_false, exists_false, or_false] at hnode hnode'
      exact hne (hnode.symm.trans hnode')

/-- The links determine the buffers on a ring. -/
theorem Rings.unique {links : Links (Node nbuf)} {ring : Fin nbuckets → List (Fin nbuf)}
    (h : Rings links ring) {k : Fin nbuckets} {bufs : List (Fin nbuf)}
    (hcycle : Cycle links (.bucket k) (bufs.map .buf)) : bufs = ring k := by
  have hinj : Function.Injective (Node.buf : Fin nbuf → Node nbuf) := fun left right heq => by
    simpa using heq
  exact List.map_injective_iff.mpr hinj (Path.unique hcycle (h.cycle k) (by simp) (by simp))

/-! ## Moving a buffer -/

/-- Unlinking a buffer takes it off the ring it is on. -/
theorem Rings.unlink {links : Links (Node nbuf)} {ring : Fin nbuckets → List (Fin nbuf)}
    (h : Rings links ring) {b : Fin nbuf} {k : Fin nbuckets} (hmem : b ∈ ring k) :
    Rings (links.unlink (.buf b)) (fun j => (ring j).erase b) := by
  obtain ⟨left, right, hsplit⟩ := List.append_of_mem hmem
  have hk := h.cycle k
  rw [hsplit, List.map_append, List.map_cons] at hk
  refine ⟨fun j => ?_, fun j => (h.nodup j).erase b, fun b' j j' hj hj' =>
    h.disjoint b' j j' (List.mem_of_mem_erase hj) (List.mem_of_mem_erase hj')⟩
  by_cases hjk : j = k
  · subst hjk
    have hnodup := h.nodup_nodes j
    have hleft : b ∉ left := by
      have hnd := h.nodup j
      rw [hsplit] at hnd
      exact fun hl => (List.disjoint_of_nodup_append hnd) hl (by simp)
    rw [hsplit, List.map_append, List.map_cons] at hnodup
    rw [hsplit, List.erase_append_right _ hleft, List.erase_cons_head, List.map_append]
    exact hk.unlink hnodup
  · have hnot : b ∉ ring j := fun hj => hjk (h.disjoint b j k hj hmem)
    rw [List.erase_of_not_mem hnot]
    refine (h.cycle j).unlink_other hk fun node hnode => ?_
    have hdisjoint := h.disjoint_nodes hjk node hnode
    rwa [hsplit, List.map_append, List.map_cons] at hdisjoint

/-- Inserting a buffer that is on no ring puts it in front of a bucket. -/
theorem Rings.insertAfter {links : Links (Node nbuf)}
    {ring : Fin nbuckets → List (Fin nbuf)} (h : Rings links ring) {b : Fin nbuf}
    (hfresh : ∀ j, b ∉ ring j) (cur : Fin nbuckets) :
    Rings (links.insertAfter (.bucket cur) (.buf b))
      (Function.update ring cur (b :: ring cur)) := by
  refine ⟨fun j => ?_, fun j => ?_, fun b' j j' hj hj' => ?_⟩
  · by_cases hj : j = cur
    · subst hj
      simpa using (h.cycle j).insertAfter (h.nodup_nodes j) (by simp [hfresh j])
    · rw [Function.update_of_ne hj]
      exact (h.cycle j).insertAfter_other (h.cycle cur) (h.disjoint_nodes hj)
        (by simp [hfresh j])
  · by_cases hj : j = cur
    · subst hj
      simpa using ⟨hfresh j, h.nodup j⟩
    · simpa [hj] using h.nodup j
  · by_cases hb : b' = b
    · subst hb
      have hcur : ∀ i, b' ∈ Function.update ring cur (b' :: ring cur) i → i = cur := by
        intro i hi
        by_contra hne
        rw [Function.update_of_ne hne] at hi
        exact hfresh i hi
      rw [hcur j hj, hcur j' hj']
    · have hold : ∀ i, b' ∈ Function.update ring cur (b :: ring cur) i → b' ∈ ring i := by
        intro i hi
        by_cases hne : i = cur
        · subst hne
          simpa [hb] using hi
        · rwa [Function.update_of_ne hne] at hi
      exact h.disjoint b' j j' (hold j hj) (hold j' hj')

/-- The rings after `b` has been moved to the front of bucket `cur`. -/
def movedToFront (ring : Fin nbuckets → List (Fin nbuf)) (b : Fin nbuf)
    (cur : Fin nbuckets) : Fin nbuckets → List (Fin nbuf) :=
  Function.update (fun j => (ring j).erase b) cur (b :: (ring cur).erase b)

theorem Rings.moveToFront {links : Links (Node nbuf)}
    {ring : Fin nbuckets → List (Fin nbuf)} (h : Rings links ring) {b : Fin nbuf}
    {k : Fin nbuckets} (hmem : b ∈ ring k) (cur : Fin nbuckets) :
    Rings ((links.unlink (.buf b)).insertAfter (.bucket cur) (.buf b))
      (movedToFront ring b cur) := by
  refine (h.unlink hmem).insertAfter (fun j => ?_) cur
  exact (h.nodup j).not_mem_erase

/-- Moving a buffer changes no other membership. -/
theorem mem_movedToFront {links : Links (Node nbuf)}
    {ring : Fin nbuckets → List (Fin nbuf)} (h : Rings links ring) (b : Fin nbuf)
    (cur : Fin nbuckets) (b' : Fin nbuf) (k : Fin nbuckets) :
    b' ∈ movedToFront ring b cur k ↔ (b' = b ∧ k = cur) ∨ (b' ≠ b ∧ b' ∈ ring k) := by
  have herase : ∀ j, b' ∈ (ring j).erase b ↔ b' ≠ b ∧ b' ∈ ring j :=
    fun j => (h.nodup j).mem_erase_iff
  by_cases hk : k = cur
  · subst hk
    simp only [movedToFront, Function.update_self, List.mem_cons, herase, and_true]
  · simp [movedToFront, herase, hk]

/-! ## Walking a ring -/

/-- A walk along the `next` links finds the first listed buffer that passes the
test. -/
theorem scan_next {links : Links (Node nbuf)} {test : Fin nbuf → Bool}
    {head : Fin nbuckets} {bufs : List (Fin nbuf)} {start : Node nbuf} {fuel : ℕ}
    (hfuel : bufs.length < fuel)
    (hpath : Path links start (bufs.map .buf) (.bucket head)) :
    scan links.next test head fuel (links.next start) = some (bufs.find? test) := by
  induction bufs generalizing start fuel with
  | nil =>
      obtain ⟨fuel, rfl⟩ := Nat.exists_eq_succ_of_ne_zero (Nat.ne_zero_of_lt hfuel)
      rw [hpath.1]
      simp [scan]
  | cons b bufs ih =>
      obtain ⟨fuel, rfl⟩ := Nat.exists_eq_succ_of_ne_zero (Nat.ne_zero_of_lt hfuel)
      obtain ⟨⟨hforward, -⟩, hrest⟩ := hpath
      rw [hforward]
      by_cases htest : test b
      · simp [scan, htest]
      · simpa [scan, htest] using ih (by simpa using hfuel) hrest

/-- A walk along the `prev` links finds the last listed buffer that passes the
test. -/
theorem scan_prev {links : Links (Node nbuf)} {test : Fin nbuf → Bool}
    {head : Fin nbuckets} {bufs : List (Fin nbuf)} {stop : Node nbuf} {fuel : ℕ}
    (hfuel : bufs.length < fuel)
    (hpath : Path links (.bucket head) (bufs.map .buf) stop) :
    scan links.prev test head fuel (links.prev stop) = some (bufs.reverse.find? test) := by
  induction bufs using List.reverseRecOn generalizing stop fuel with
  | nil =>
      obtain ⟨fuel, rfl⟩ := Nat.exists_eq_succ_of_ne_zero (Nat.ne_zero_of_lt hfuel)
      rw [hpath.2]
      simp [scan]
  | append_singleton bufs b ih =>
      obtain ⟨fuel, rfl⟩ := Nat.exists_eq_succ_of_ne_zero (Nat.ne_zero_of_lt hfuel)
      rw [List.map_append, List.map_cons, List.map_nil] at hpath
      obtain ⟨hrest, -, hback⟩ := path_append.mp hpath
      rw [hback]
      by_cases htest : test b
      · simp [scan, htest]
      · simpa [scan, htest] using ih (by simpa using hfuel) hrest

theorem Rings.length_lt {links : Links (Node nbuf)}
    {ring : Fin nbuckets → List (Fin nbuf)} (h : Rings links ring) (k : Fin nbuckets) :
    (ring k).length < nbuf + 1 := by
  have hcard := List.Nodup.length_le_card (h.nodup k)
  rw [Fintype.card_fin] at hcard
  omega

/-- The walks of `bget` come back to their head. -/
theorem Rings.scanNext {c : Cache nbuf} {ring : Fin nbuckets → List (Fin nbuf)}
    (h : Rings c.links ring) (head : Fin nbuckets) (test : Fin nbuf → Bool) :
    c.scanNext head test = some ((ring head).find? test) :=
  scan_next (h.length_lt head) (h.cycle head)

theorem Rings.scanPrev {c : Cache nbuf} {ring : Fin nbuckets → List (Fin nbuf)}
    (h : Rings c.links ring) (head : Fin nbuckets) (test : Fin nbuf → Bool) :
    c.scanPrev head test = some ((ring head).reverse.find? test) :=
  scan_prev (h.length_lt head) (h.cycle head)

/-! ## The rings of `binit` -/

/-- `binit` links every buffer into exactly one ring. -/
theorem rings_binit (garbage : Links (Node nbuf)) :
    ∃ ring, Rings (binit garbage).links ring ∧ ∀ b, ∃ k, b ∈ ring k := by
  -- After the buffers of `done` have been inserted, they are the listed ones.
  have hloop : ∀ (todo done : List (Fin nbuf)) (links : Links (Node nbuf))
      (ring : Fin nbuckets → List (Fin nbuf)), (done ++ todo).Nodup →
      Rings links ring → (∀ b, (∃ k, b ∈ ring k) ↔ b ∈ done) →
      ∃ ring', Rings (todo.foldl (fun links (b : Fin nbuf) =>
        links.insertAfter (.bucket (bucketOf b)) (.buf b)) links) ring' ∧
        ∀ b, (∃ k, b ∈ ring' k) ↔ b ∈ done ++ todo := by
    intro todo
    induction todo with
    | nil => intro done links ring _ hrings hdone; exact ⟨ring, hrings, by simpa using hdone⟩
    | cons b todo ih =>
        intro done links ring hnodup hrings hdone
        have hfresh : ∀ j, b ∉ ring j := by
          intro j hj
          exact (List.disjoint_of_nodup_append hnodup) ((hdone b).mp ⟨j, hj⟩) (by simp)
        obtain ⟨ring', hrings', hdone'⟩ := ih (done ++ [b]) _ _ (by simpa using hnodup)
          (hrings.insertAfter hfresh (bucketOf b)) (by
            intro b'
            rw [List.mem_append, List.mem_singleton, ← hdone b']
            constructor
            · rintro ⟨k, hk⟩
              by_cases hcur : k = bucketOf b
              · subst hcur
                rw [Function.update_self, List.mem_cons] at hk
                exact hk.symm.imp_left fun hmem => ⟨_, hmem⟩
              · rw [Function.update_of_ne hcur] at hk
                exact Or.inl ⟨k, hk⟩
            · rintro (⟨k, hk⟩ | rfl)
              · refine ⟨k, ?_⟩
                by_cases hcur : k = bucketOf b
                · subst hcur
                  simp [hk]
                · rwa [Function.update_of_ne hcur]
              · exact ⟨bucketOf b', by simp⟩)
        refine ⟨ring', hrings', fun b' => ?_⟩
        rw [hdone' b']
        simp
  obtain ⟨ring, hrings, hall⟩ := hloop (List.finRange nbuf) [] (emptyRings garbage)
    (fun _ => []) (by simpa using List.nodup_finRange nbuf)
    ⟨fun k => ⟨rfl, rfl⟩, fun _ => List.nodup_nil, by simp⟩ (by simp)
  exact ⟨ring, hrings, fun b => (hall b).mpr (by simp)⟩

end OperateSystem.Bio

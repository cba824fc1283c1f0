import OperateSystem.Vm.Table
import Mathlib.Algebra.Order.BigOperators.Group.Finset
import Mathlib.Order.Interval.Finset.Nat

/-!
# Mapping pages

What `walk` and `mappages` do to a table, with the number of pages they take.  A
mapping succeeds exactly when the free list is at least as long as the number of
tables that are missing on the way; otherwise it uses the list up.
-/

namespace OperateSystem.Vm

open OperateSystem.PointerTree

/-- The tables that `vpns` need and that are not there yet. -/
def missing (mem : ℕ → Page) (root : ℕ) (vpns : Finset ℕ) : Finset (List (Fin 512)) :=
  (vpns.biUnion pathsOf).filter fun path => node next mem root path = none

section Missing

variable {root : ℕ} {mem mem' : ℕ → Page} {added : Finset (List (Fin 512))}

theorem length_of_mem_pathsOf {vpn : ℕ} {path : List (Fin 512)} (h : path ∈ pathsOf vpn) :
    path.length ≤ 2 := by
  simp only [pathsOf, Finset.mem_insert, Finset.mem_singleton] at h
  rcases h with rfl | rfl <;> simp

theorem mem_missing {vpns : Finset ℕ} {path : List (Fin 512)} :
    path ∈ missing mem root vpns ↔
      (∃ vpn ∈ vpns, path ∈ pathsOf vpn) ∧ node next mem root path = none := by
  simp [missing]

theorem missing_union (mem : ℕ → Page) (vpns vpns' : Finset ℕ) :
    missing mem root (vpns ∪ vpns') = missing mem root vpns ∪ missing mem root vpns' := by
  ext path
  simp only [mem_missing, Finset.mem_union]
  constructor
  · rintro ⟨⟨vpn, hvpn | hvpn, hpath⟩, hnone⟩
    · exact Or.inl ⟨⟨vpn, hvpn, hpath⟩, hnone⟩
    · exact Or.inr ⟨⟨vpn, hvpn, hpath⟩, hnone⟩
  · rintro (⟨⟨vpn, hvpn, hpath⟩, hnone⟩ | ⟨⟨vpn, hvpn, hpath⟩, hnone⟩)
    · exact ⟨⟨vpn, Or.inl hvpn, hpath⟩, hnone⟩
    · exact ⟨⟨vpn, Or.inr hvpn, hpath⟩, hnone⟩

theorem card_missing_le (mem : ℕ → Page) (root : ℕ) (vpns vpns' : Finset ℕ) :
    (missing mem root vpns).card ≤ (missing mem root (vpns ∪ vpns')).card := by
  rw [missing_union]
  exact Finset.card_le_card Finset.subset_union_left

/-- A virtual page needs two tables at most. -/
theorem card_paths_le (vpns : Finset ℕ) : (vpns.biUnion pathsOf).card ≤ vpns.card * 2 := by
  apply Finset.card_biUnion_le_card_mul
  intro vpn _
  exact Finset.card_le_two

theorem card_missing_le_mul (mem : ℕ → Page) (root : ℕ) (vpns : Finset ℕ) :
    (missing mem root vpns).card ≤ vpns.card * 2 :=
  (Finset.card_filter_le _ _).trans (card_paths_le vpns)

theorem missing_congr (h : ∀ path : List (Fin 512), path.length ≤ 2 →
    node next mem' root path = node next mem root path) (vpns : Finset ℕ) :
    missing mem' root vpns = missing mem root vpns := by
  apply Finset.filter_congr
  intro path hpath
  obtain ⟨vpn, -, hpath⟩ := Finset.mem_biUnion.mp hpath
  rw [h path (length_of_mem_pathsOf hpath)]

/-- Which tables are missing depends on the tables only. -/
theorem missing_frame (hframe : ∀ page ∈ tables mem root, mem' page = mem page)
    (vpns : Finset ℕ) : missing mem' root vpns = missing mem root vpns :=
  missing_congr (fun _ hlength => node_frame hframe hlength) vpns

/-- Tables that are added are not missing any more. -/
theorem Adds.missing_eq (h : Adds root added mem mem') (vpns : Finset ℕ) :
    missing mem' root vpns = missing mem root vpns \ added := by
  ext path
  rw [Finset.mem_sdiff, mem_missing, mem_missing]
  constructor
  · rintro ⟨hvpn, hnone⟩
    obtain ⟨vpn, -, hpath⟩ := id hvpn
    have hadded : path ∉ added := by
      intro hadded
      have hsome := (h.new path hadded).2.2
      rw [hnone] at hsome
      cases hsome
    rw [h.old path (length_of_mem_pathsOf hpath) hadded] at hnone
    exact ⟨⟨hvpn, hnone⟩, hadded⟩
  · rintro ⟨⟨hvpn, hnone⟩, hadded⟩
    obtain ⟨vpn, -, hpath⟩ := id hvpn
    rw [← h.old path (length_of_mem_pathsOf hpath) hadded] at hnone
    exact ⟨hvpn, hnone⟩

/-- Supplying `vpns` first and `vpns'` then takes the pages that both need. -/
theorem Adds.missing_card {vpns : Finset ℕ}
    (h : Adds root (missing mem root vpns) mem mem') (vpns' : Finset ℕ) :
    missing mem root (vpns ∪ vpns') = missing mem root vpns ∪ missing mem' root vpns' ∧
      (missing mem root (vpns ∪ vpns')).card
        = (missing mem root vpns).card + (missing mem' root vpns').card := by
  have hunion : missing mem root (vpns ∪ vpns')
      = missing mem root vpns ∪ missing mem' root vpns' := by
    rw [missing_union, h.missing_eq, Finset.union_sdiff_self_eq_union]
  refine ⟨hunion, ?_⟩
  rw [hunion, Finset.card_union_of_disjoint]
  rw [h.missing_eq]
  exact Finset.disjoint_sdiff

end Missing

section Walk

variable {root : ℕ} {m : Machine}

theorem missing_eq_empty {vpn table : ℕ} (htable : node next m.mem root (pathOf vpn) = some table) :
    missing m.mem root {vpn} = ∅ := by
  ext path
  simp only [mem_missing, Finset.mem_singleton, exists_eq_left, pathsOf, Finset.mem_insert,
    Finset.notMem_empty, iff_false, not_and]
  rintro (rfl | rfl) hnone
  · simp only [pathOf, node] at htable hnone
    cases hnext : next (m.mem root (idx 2 vpn)) with
    | none => simp [hnext] at htable
    | some table => simp [hnext] at hnone
  · rw [pathOf, hnone] at htable
    cases htable

theorem missing_eq_last {vpn table : ℕ} (htable : next (m.mem root (idx 2 vpn)) = some table)
    (hnone : next (m.mem table (idx 1 vpn)) = none) :
    missing m.mem root {vpn} = {pathOf vpn} := by
  ext path
  simp only [mem_missing, Finset.mem_singleton, exists_eq_left, pathsOf, Finset.mem_insert, pathOf]
  constructor
  · rintro ⟨rfl | rfl, hpath⟩
    · simp [node, htable] at hpath
    · rfl
  · rintro rfl
    exact ⟨Or.inr rfl, by simp [node, htable, hnone]⟩

theorem missing_eq_both {vpn : ℕ} (hnone : next (m.mem root (idx 2 vpn)) = none) :
    missing m.mem root {vpn} = {[idx 2 vpn], pathOf vpn} := by
  ext path
  simp only [mem_missing, Finset.mem_singleton, exists_eq_left, pathsOf, Finset.mem_insert, pathOf]
  constructor
  · rintro ⟨hpath, -⟩
    exact hpath
  · rintro (rfl | rfl)
    · exact ⟨Or.inl rfl, by simp [node, hnone]⟩
    · exact ⟨Or.inr rfl, by simp [node, hnone]⟩

/-- Walking with allocation: the tables on the way are there afterwards, or the
free list has run out. -/
theorem walk_graft (h : Planted m root) {vpn : ℕ} (hvpn : vpn < 2 ^ 26) :
    (∃ table m', walk m root (4096 * vpn) true = .ok (some (table, idx 0 vpn), m') ∧
      node next m'.mem root (pathOf vpn) = some table ∧
      Graft root (missing m.mem root {vpn}) (entry m.mem root) m m' ∧
      (missing m.mem root {vpn}).card ≤ m.free.length) ∨
    (∃ added m', walk m root (4096 * vpn) true = .ok (none, m') ∧ m'.free = [] ∧
      Graft root added (entry m.mem root) m m' ∧
      m.free.length < (missing m.mem root {vpn}).card) := by
  have hlt : ¬ maxVa ≤ 4096 * vpn := by
    rw [maxVa]
    omega
  rw [walk, if_neg hlt, px_start, px_start, px_start, walkLevel_true]
  cases hnext : next (m.mem root (idx 2 vpn)) with
  | some table =>
      have hpath : node next m.mem root [idx 2 vpn] = some table := by simp [node, hnext]
      simp only [walkLevel_true]
      cases hnext' : next (m.mem table (idx 1 vpn)) with
      | some table' =>
          have hpath' : node next m.mem root (pathOf vpn) = some table' := by
            simp [pathOf, node, hnext, hnext']
          refine Or.inl ⟨table', m, rfl, hpath', ?_, ?_⟩
          · rw [missing_eq_empty hpath']
            exact Graft.refl h
          · rw [missing_eq_empty hpath']
            simp
      | none =>
          rw [missing_eq_last hnext hnext']
          cases hfree : m.free with
          | nil => exact Or.inr ⟨∅, m, rfl, hfree, Graft.refl h, by simp⟩
          | cons page free =>
              have hgraft := Graft.hang h [idx 2 vpn] (by simp) hpath hnext'
                ⟨vpn, hvpn, by simp [pathsOf]⟩ hfree
              refine Or.inl ⟨page, _, rfl, ?_, hgraft, by simp⟩
              have hlink := hangs_hang (idx 1 vpn) free hnext'
                (show table ≠ page from fun heq => h.apart page (by simp [hfree])
                  ⟨[idx 2 vpn], by simp, heq ▸ hpath⟩)
                (h.bounded page (by simp [hfree]))
              have hstay := hgraft.node_some (by simp) hpath
              rw [pathOf, show [idx 2 vpn, idx 1 vpn] = [idx 2 vpn] ++ [idx 1 vpn] from rfl,
                node_concat, hstay, Option.bind_some, hlink.link]
  | none =>
      rw [missing_eq_both hnext]
      have hcard : ({[idx 2 vpn], pathOf vpn} : Finset (List (Fin 512))).card = 2 := by
        rw [Finset.card_pair]
        simp [pathOf]
      rw [hcard]
      cases hfree : m.free with
      | nil => exact Or.inr ⟨∅, m, rfl, hfree, Graft.refl h, by simp⟩
      | cons page free =>
          have hne : root ≠ page := fun heq => h.apart page (by simp [hfree])
            (heq ▸ root_mem_nodes 2)
          have hbound := h.bounded page (by simp [hfree])
          have hgraft := Graft.hang h [] (by simp) rfl hnext ⟨vpn, hvpn, by simp [pathsOf]⟩ hfree
          have hlink := hangs_hang (idx 2 vpn) free hnext hne hbound
          have hplanted := hgraft.planted h
          have hpath : node next (hang m root (idx 2 vpn) page free).mem root [idx 2 vpn]
              = some page := by
            simp [node, hlink.link]
          have hnext' := hlink.blank (idx 1 vpn)
          have hrest : (hang m root (idx 2 vpn) page free).free = free := rfl
          simp only [walkLevel_true, hnext', hrest]
          cases hfree' : free with
          | nil =>
              subst hfree'
              exact Or.inr ⟨_, _, rfl, rfl, hgraft, by simp⟩
          | cons page' free' =>
              subst hfree'
              have hgraft' := Graft.hang hplanted [idx 2 vpn] (by simp) hpath hnext'
                ⟨vpn, hvpn, by simp [pathsOf]⟩ hrest
              refine Or.inl ⟨page', _, rfl, ?_, ?_, by simp⟩
              · have hlink' := hangs_hang (idx 1 vpn) free' hnext'
                  (show page ≠ page' from fun heq => hplanted.apart page' (by simp [hrest])
                    ⟨[idx 2 vpn], by simp, heq ▸ hpath⟩)
                  (hplanted.bounded page' (by simp [hrest]))
                have hstay := hgraft'.node_some (by simp) hpath
                rw [pathOf, show [idx 2 vpn, idx 1 vpn] = [idx 2 vpn] ++ [idx 1 vpn] from rfl,
                  node_concat, hstay, Option.bind_some, hlink'.link]
              · exact (hgraft.trans hgraft').congr hgraft.entry_eq

end Walk

/-- The map with `n` pages from `lo` on mapped to the pages from `page` on. -/
def rangeMap (map : ℕ → Word) (lo n page : ℕ) (perm : Word) : ℕ → Word := fun vpn =>
  if lo ≤ vpn ∧ vpn < lo + n then pa2pte (page + (vpn - lo)) ||| perm ||| pteV else map vpn

section Mappages

@[simp]
theorem ok_bind {α β : Type} (a : α) (f : α → Except Fault β) :
    ((Except.ok a : Except Fault α) >>= f) = f a := rfl

@[simp]
theorem error_bind {α β : Type} (e : Fault) (f : α → Except Fault β) :
    ((Except.error e : Except Fault α) >>= f) = .error e := rfl

theorem valid_entry (page : ℕ) (perm : Word) : Valid (pa2pte page ||| perm ||| pteV) := by
  have hand : (pa2pte page ||| perm ||| pteV) &&& pteV = pteV := by
    rw [BitVec.and_or_distrib_right, BitVec.and_self]
    ext i hi
    simp only [BitVec.getElem_or, BitVec.getElem_and]
    cases pteV[i] <;> simp
  rw [Valid, hand]
  decide

theorem leaf_entry {page : ℕ} (hpage : page < 2 ^ 52) {perm : Word} (hperm : Leaf perm) :
    Leaf (pa2pte page ||| perm ||| pteV) := by
  have hv : pteV &&& (pteR ||| pteW ||| pteX) = 0 := by decide
  rw [Leaf, BitVec.or_assoc, entry_and hpage (by decide), BitVec.and_or_distrib_right, hv,
    show perm &&& (pteR ||| pteW ||| pteX) ||| 0 = perm &&& (pteR ||| pteW ||| pteX) from
      BitVec.or_zero]
  exact hperm

variable {root : ℕ} {m : Machine}

theorem rangeMap_zero (map : ℕ → Word) (lo page : ℕ) (perm : Word) :
    rangeMap map lo 0 page perm = map := by
  funext vpn
  rw [rangeMap, if_neg (by omega)]

/-- Mapping one page and then the pages after it. -/
theorem rangeMap_succ (map : ℕ → Word) (lo n page : ℕ) (perm : Word) :
    rangeMap (Function.update map lo (pa2pte page ||| perm ||| pteV)) (lo + 1) n (page + 1) perm
      = rangeMap map lo (n + 1) page perm := by
  funext vpn
  simp only [rangeMap, Function.update_apply]
  rcases Nat.lt_trichotomy vpn lo with hlt | rfl | hgt
  · rw [if_neg (by omega), if_neg (by omega), if_neg (by omega)]
  · rw [if_neg (by omega), if_pos rfl, if_pos (by omega), Nat.sub_self, Nat.add_zero]
  · by_cases hend : vpn < lo + (n + 1)
    · rw [if_pos (by omega), if_pos (by omega), show page + 1 + (vpn - (lo + 1)) = page + (vpn - lo)
        by omega]
    · rw [if_neg (by omega), if_neg (by omega), if_neg (by omega)]

/-- One turn of the loop of `mappages`. -/
theorem mappagesLoop_turn {lo : ℕ} (h : Planted m root) (hlo : lo < 2 ^ 26)
    (hvacant : ¬ Valid (entry m.mem root lo)) (page : ℕ) (perm : Word) :
    (∃ m', (∀ fuel last, mappagesLoop root last perm (fuel + 1) (4096 * lo) page m
        = if 4096 * lo = last then .ok (true, m')
          else mappagesLoop root last perm fuel (4096 * (lo + 1)) (page + 1) m') ∧
      Graft root (missing m.mem root {lo})
        (Function.update (entry m.mem root) lo (pa2pte page ||| perm ||| pteV)) m m' ∧
      (missing m.mem root {lo}).card ≤ m.free.length) ∨
    (∃ added m', (∀ fuel last, mappagesLoop root last perm (fuel + 1) (4096 * lo) page m
        = .ok (false, m')) ∧ m'.free = [] ∧ Graft root added (entry m.mem root) m m' ∧
      m.free.length < (missing m.mem root {lo}).card) := by
  rcases walk_graft h hlo with
    ⟨table, m₁, hwalk, hnode, hgraft, hcard⟩ | ⟨added, m₁, hwalk, hfree, hgraft, hcard⟩
  · have hmiss : ¬ Valid (m₁.mem table (idx 0 lo)) := by
      rw [← entry_of_node hnode, hgraft.entry_eq lo (by omega)]
      exact hvacant
    have hstore := Graft.store (hgraft.planted h) (show lo < 2 ^ 27 by omega) hnode
      (pa2pte page ||| perm ||| pteV)
    refine Or.inl ⟨m₁.store table (idx 0 lo) (pa2pte page ||| perm ||| pteV), ?_, ?_, hcard⟩
    · intro fuel last
      rw [mappagesLoop, hwalk]
      simp only [ok_bind, hmiss, if_false]
      rfl
    · rw [← Finset.union_empty (missing m.mem root {lo})]
      apply (hgraft.trans hstore).congr
      intro vpn hvpn
      simp only [Function.update_apply, hgraft.entry_eq vpn hvpn]
  · refine Or.inr ⟨added, m₁, ?_, hfree, hgraft, hcard⟩
    intro fuel last
    rw [mappagesLoop, hwalk]
    rfl

/-- The loop of `mappages` over the pages from `lo` to `lo + n`. -/
theorem mappagesLoop_graft {n lo fuel : ℕ} (h : Planted m root) (hfuel : n < fuel)
    (hend : lo + n < 2 ^ 26)
    (hvacant : ∀ vpn, lo ≤ vpn → vpn ≤ lo + n → ¬ Valid (entry m.mem root vpn))
    (page : ℕ) (perm : Word) :
    (∃ m', mappagesLoop root (4096 * (lo + n)) perm fuel (4096 * lo) page m = .ok (true, m') ∧
      Graft root (missing m.mem root (Finset.Icc lo (lo + n)))
        (rangeMap (entry m.mem root) lo (n + 1) page perm) m m' ∧
      (missing m.mem root (Finset.Icc lo (lo + n))).card ≤ m.free.length) ∨
    (∃ added k m', mappagesLoop root (4096 * (lo + n)) perm fuel (4096 * lo) page m
        = .ok (false, m') ∧ m'.free = [] ∧ k ≤ n ∧
      Graft root added (rangeMap (entry m.mem root) lo k page perm) m m' ∧
      m.free.length < (missing m.mem root (Finset.Icc lo (lo + n))).card) := by
  induction n generalizing lo page fuel m with
  | zero =>
      obtain ⟨fuel, rfl⟩ := Nat.exists_eq_add_of_le' hfuel
      have hturn := mappagesLoop_turn h (show lo < 2 ^ 26 by omega)
        (hvacant lo (by omega) (by omega)) page perm
      rw [Nat.add_zero, Finset.Icc_self]
      rcases hturn with ⟨m', hloop, hgraft, hcard⟩ | ⟨added, m', hloop, hfree, hgraft, hcard⟩
      · refine Or.inl ⟨m', by rw [hloop, if_pos rfl], ?_, hcard⟩
        rw [← rangeMap_succ, rangeMap_zero]
        exact hgraft
      · refine Or.inr ⟨added, 0, m', hloop _ _, hfree, le_refl 0, ?_, hcard⟩
        rw [rangeMap_zero]
        exact hgraft
  | succ n ih =>
      obtain ⟨fuel, rfl⟩ := Nat.exists_eq_add_of_le' (show 1 ≤ fuel by omega)
      have hturn := mappagesLoop_turn h (show lo < 2 ^ 26 by omega)
        (hvacant lo (by omega) (by omega)) page perm
      have hsplit : Finset.Icc lo (lo + (n + 1)) = {lo} ∪ Finset.Icc (lo + 1) (lo + 1 + n) := by
        ext vpn
        simp only [Finset.mem_Icc, Finset.mem_union, Finset.mem_singleton]
        omega
      have hlast : lo + (n + 1) = lo + 1 + n := by omega
      have hne : 4096 * lo ≠ 4096 * (lo + (n + 1)) := by omega
      rcases hturn with ⟨m₁, hloop, hgraft, hcard⟩ | ⟨added, m', hloop, hfree, hgraft, hcard⟩
      · have hplanted := hgraft.planted h
        have hentry : ∀ vpn, vpn < 2 ^ 27 → entry m₁.mem root vpn
            = Function.update (entry m.mem root) lo (pa2pte page ||| perm ||| pteV) vpn :=
          hgraft.entry_eq
        have hvacant₁ : ∀ vpn, lo + 1 ≤ vpn → vpn ≤ lo + 1 + n →
            ¬ Valid (entry m₁.mem root vpn) := by
          intro vpn hlo hhi
          rw [hentry vpn (by omega), Function.update_of_ne (by omega)]
          exact hvacant vpn (by omega) (by omega)
        have hmap : ∀ k vpn, vpn < 2 ^ 27 →
            rangeMap (entry m₁.mem root) (lo + 1) k (page + 1) perm vpn
              = rangeMap (entry m.mem root) lo (k + 1) page perm vpn := by
          intro k vpn hvpn
          rw [← rangeMap_succ]
          simp only [rangeMap, hentry vpn hvpn]
        obtain ⟨hunion, hsum⟩ := hgraft.missing_card (Finset.Icc (lo + 1) (lo + 1 + n))
        have hcount := hgraft.count
        have hrest := ih hplanted (show n < fuel by omega) (show lo + 1 + n < 2 ^ 26 by omega)
          hvacant₁ (page + 1)
        rw [hloop, if_neg hne, hsplit, hsum, hunion, hlast]
        rcases hrest with
          ⟨m', hrest, hgraft', hcard'⟩ | ⟨added', k, m', hrest, hfree', hk, hgraft', hcard'⟩
        · have hboth := (hgraft.trans hgraft').congr (hmap (n + 1))
          exact Or.inl ⟨m', hrest, hboth, by omega⟩
        · have hboth := (hgraft.trans hgraft').congr (hmap k)
          exact Or.inr ⟨_, k + 1, m', hrest, hfree', by omega, hboth, by omega⟩
      · refine Or.inr ⟨added, 0, m', hloop _ _, hfree, by omega, ?_, ?_⟩
        · rw [rangeMap_zero]
          exact hgraft
        · rw [hsplit]
          exact lt_of_lt_of_le hcard (card_missing_le _ _ _ _)

/-- `mappages` of the bytes from `va` on, which reach from page `lo` to page
`lo + n`. -/
theorem mappages_graft {va size lo n : ℕ} (h : Planted m root) (hsize : 0 < size)
    (hlo : va / 4096 = lo) (hlast : (va + size - 1) / 4096 = lo + n) (hend : lo + n < 2 ^ 26)
    (hvacant : ∀ vpn, lo ≤ vpn → vpn ≤ lo + n → ¬ Valid (entry m.mem root vpn))
    (page : ℕ) (perm : Word) :
    (∃ m', mappages m root va size page perm = .ok (true, m') ∧
      Graft root (missing m.mem root (Finset.Icc lo (lo + n)))
        (rangeMap (entry m.mem root) lo (n + 1) page perm) m m' ∧
      (missing m.mem root (Finset.Icc lo (lo + n))).card ≤ m.free.length) ∨
    (∃ added k m', mappages m root va size page perm = .ok (false, m') ∧ m'.free = [] ∧ k ≤ n ∧
      Graft root added (rangeMap (entry m.mem root) lo k page perm) m m' ∧
      m.free.length < (missing m.mem root (Finset.Icc lo (lo + n))).card) := by
  have hfirst : pgRoundDown va = 4096 * lo := by
    rw [pgRoundDown, pgSize, hlo, Nat.mul_comm]
  have hend' : pgRoundDown (u64 (va + size - 1)) = 4096 * (lo + n) := by
    have hsum : ((va : Int) + size - 1) = ((va + size - 1 : ℕ) : Int) := by omega
    rw [hsum, u64_of_lt (by omega), pgRoundDown, pgSize, hlast, Nat.mul_comm]
  rw [mappages, hfirst, hend']
  apply mappagesLoop_graft h _ hend hvacant page perm
  rw [maxVa, pgSize]
  omega

theorem Table.leaf_rangeMap (h : Table m.mem root) {lo n page : ℕ} {perm : Word}
    (hpage : page + n ≤ 2 ^ 52) (hperm : Leaf perm) (vpn : ℕ)
    (hvalid : Valid (rangeMap (entry m.mem root) lo n page perm vpn)) :
    Leaf (rangeMap (entry m.mem root) lo n page perm vpn) := by
  rw [rangeMap] at hvalid ⊢
  split at hvalid <;> rename_i hin
  · rw [if_pos hin]
    exact Vm.leaf_entry (by omega) hperm
  · rw [if_neg hin]
    exact h.leaf_entry hvalid

/-- `mappages` of `n + 1` whole pages. -/
theorem mappages_spec {n lo page : ℕ} {perm : Word} (h : Ready m root) (hend : lo + n < 2 ^ 26)
    (hvacant : ∀ vpn, lo ≤ vpn → vpn ≤ lo + n → ¬ Valid (entry m.mem root vpn))
    (hpage : page + n < 2 ^ 52) (hperm : Leaf perm) {va size : ℕ} (hva : va = lo * 4096)
    (hsize : size = (n + 1) * 4096) :
    (∃ m', mappages m root va size page perm = .ok (true, m') ∧
      Edit root (missing m.mem root (Finset.Icc lo (lo + n)))
        (rangeMap (entry m.mem root) lo (n + 1) page perm) m m' ∧
      (missing m.mem root (Finset.Icc lo (lo + n))).card ≤ m.free.length) ∨
    (∃ added k m', mappages m root va size page perm = .ok (false, m') ∧ m'.free = [] ∧ k ≤ n ∧
      Edit root added (rangeMap (entry m.mem root) lo k page perm) m m' ∧
      m.free.length < (missing m.mem root (Finset.Icc lo (lo + n))).card) := by
  rcases mappages_graft h.planted (show 0 < size by omega) (show va / 4096 = lo by omega)
    (show (va + size - 1) / 4096 = lo + n by omega) hend hvacant page perm with
    ⟨m', hmap, hgraft, hcard⟩ | ⟨added, k, m', hmap, hfree, hk, hgraft, hcard⟩
  · exact Or.inl ⟨m', hmap, hgraft.edit h.table fun vpn _ =>
      h.table.leaf_rangeMap (by omega) hperm vpn, hcard⟩
  · exact Or.inr ⟨added, k, m', hmap, hfree, hk, hgraft.edit h.table fun vpn _ =>
      h.table.leaf_rangeMap (by omega) hperm vpn, hcard⟩

/-- `mappages` of one page. -/
theorem mappages_one {vpn page : ℕ} {perm : Word} (h : Ready m root) (hvpn : vpn < 2 ^ 26)
    (hvacant : ¬ Valid (entry m.mem root vpn)) (hpage : page < 2 ^ 52) (hperm : Leaf perm)
    {va : ℕ} (hva : va = vpn * 4096) :
    (∃ m', mappages m root va pgSize page perm = .ok (true, m') ∧
      Edit root (missing m.mem root {vpn})
        (Function.update (entry m.mem root) vpn (pa2pte page ||| perm ||| pteV)) m m' ∧
      (missing m.mem root {vpn}).card ≤ m.free.length) ∨
    (∃ added m', mappages m root va pgSize page perm = .ok (false, m') ∧ m'.free = [] ∧
      Edit root added (entry m.mem root) m m' ∧
      m.free.length < (missing m.mem root {vpn}).card) := by
  have honly : ∀ v, vpn ≤ v → v ≤ vpn + 0 → ¬ Valid (entry m.mem root v) := by
    intro v hlo hhi
    rwa [show v = vpn by omega]
  have hspec := mappages_spec h (show vpn + 0 < 2 ^ 26 by omega) honly hpage hperm hva
    (show pgSize = (0 + 1) * 4096 by rfl)
  rw [Nat.add_zero, Finset.Icc_self, ← rangeMap_succ, rangeMap_zero] at hspec
  rcases hspec with hok | ⟨added, k, m', hmap, hfree, hk, hedit, hcard⟩
  · exact Or.inl hok
  · obtain rfl : k = 0 := by omega
    rw [rangeMap_zero] at hedit
    exact Or.inr ⟨added, m', hmap, hfree, hedit, hcard⟩

end Mappages

section Stuck

variable {root : ℕ} {m : Machine}

/-- `walk` beyond `MAXVA` panics. -/
theorem find_high (m : Machine) (root : ℕ) {v : ℕ} (hv : 2 ^ 26 ≤ v) :
    find m root (4096 * v) = .error (.panic "walk") := by
  have hge : maxVa ≤ 4096 * v := by
    rw [maxVa]
    omega
  rw [find, walk, if_pos hge]
  rfl

/-- `mappages` of a page that is mapped already or that lies beyond `MAXVA` panics. -/
theorem mappages_stuck {v : ℕ} (h : 2 ^ 26 ≤ v ∨ Valid (entry m.mem root v)) (page : ℕ)
    (perm : Word) : ∃ e, mappages m root (4096 * v) pgSize page perm = .error e := by
  have hfirst : pgRoundDown (4096 * v) = 4096 * v := by
    rw [pgRoundDown, pgSize]
    omega
  rw [mappages, hfirst, mappagesLoop]
  by_cases hhigh : 2 ^ 26 ≤ v
  · have hge : maxVa ≤ 4096 * v := by
      rw [maxVa]
      omega
    refine ⟨.panic "walk", ?_⟩
    rw [walk, if_pos hge]
    rfl
  · have hvalid := h.resolve_left hhigh
    obtain ⟨table, hnode⟩ := node_of_valid hvalid
    have hwalk : walk m root (4096 * v) true = .ok (some (table, idx 0 v), m) := by
      have hlt : ¬ maxVa ≤ 4096 * v := by
        rw [maxVa]
        omega
      obtain ⟨upper, hupper, hlast⟩ := Option.bind_eq_some_iff.mp hnode
      obtain ⟨lower, hlower, hsame⟩ := Option.bind_eq_some_iff.mp hlast
      cases hsame
      rw [walk, if_neg hlt, px_start, px_start, px_start, walkLevel_true, hupper]
      simp only [walkLevel_true, hlower]
    rw [entry_of_node hnode] at hvalid
    refine ⟨.panic "remap", ?_⟩
    rw [hwalk]
    simp only [ok_bind, hvalid, if_true]
    rfl

end Stuck

end OperateSystem.Vm

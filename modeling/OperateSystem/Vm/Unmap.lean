import OperateSystem.Vm.Space

/-!
# Unmapping pages

`uvmunmap` on a page table alone, where the targets stay with their owner, and on
a space, where they go back to the free list.
-/

namespace OperateSystem.Vm

open OperateSystem.PointerTree

/-- The map with `n` pages from `lo` on cleared. -/
def clearMap (map : ℕ → Word) (lo n : ℕ) : ℕ → Word := fun vpn =>
  if lo ≤ vpn ∧ vpn < lo + n then 0 else map vpn

theorem clearMap_zero (map : ℕ → Word) (lo : ℕ) : clearMap map lo 0 = map := by
  funext vpn
  rw [clearMap, if_neg (by omega)]

theorem clearMap_succ (map : ℕ → Word) (lo n : ℕ) :
    clearMap (Function.update map lo 0) (lo + 1) n = clearMap map lo (n + 1) := by
  funext vpn
  simp only [clearMap, Function.update_apply]
  rcases Nat.lt_trichotomy vpn lo with hlt | rfl | hgt
  · rw [if_neg (by omega), if_neg (by omega), if_neg (by omega)]
  · rw [if_neg (by omega), if_pos rfl, if_pos (by omega)]
  · by_cases hend : vpn < lo + (n + 1)
    · rw [if_pos (by omega), if_pos (by omega)]
    · rw [if_neg (by omega), if_neg (by omega), if_neg (by omega)]

section Turn

variable {root : ℕ} {m : Machine}

theorem Table.flags_ne (h : Table m.mem root) {vpn : ℕ} (hvalid : Valid (entry m.mem root vpn)) :
    pteFlags (entry m.mem root vpn) ≠ pteV := by
  intro hflags
  apply h.leaf_entry hvalid
  have hmask : (pteR ||| pteW ||| pteX) = 0x3FF &&& (pteR ||| pteW ||| pteX) := by decide
  rw [hmask, ← BitVec.and_assoc, ← pteFlags, hflags]
  decide

/-- One turn of the loop of `uvmunmap` at a mapped page. -/
theorem uvmunmapLoop_turn {vpn : ℕ} (hvpn : vpn < 2 ^ 26) (hvalid : Valid (entry m.mem root vpn))
    (hflags : pteFlags (entry m.mem root vpn) ≠ pteV) :
    ∃ table, node next m.mem root (pathOf vpn) = some table ∧
      ∀ doFree npages, uvmunmapLoop root doFree (npages + 1) (4096 * vpn) m
        = uvmunmapLoop root doFree npages (4096 * (vpn + 1))
          ((if doFree then m.kfree (pte2pa (entry m.mem root vpn)) else m).store table
            (idx 0 vpn) 0) := by
  obtain ⟨table, hnode⟩ := node_of_valid hvalid
  refine ⟨table, hnode, ?_⟩
  intro doFree npages
  have hfind := find_eq m root hvpn (show 0 < 4096 by decide)
  rw [entry_of_node hnode] at hvalid hflags
  rw [Nat.add_zero, hnode, Option.map_some] at hfind
  rw [uvmunmapLoop, hfind, entry_of_node hnode]
  simp only [ok_bind, hvalid, hflags, not_true, if_false]
  rfl

/-- The loop of `uvmunmap` over mapped pages of a tree.  What it frees must not be a
table. -/
theorem uvmunmapLoop_remap {n lo : ℕ} {doFree : Bool} (h : Tree m.mem root) (hend : lo + n ≤ 2 ^ 26)
    (hvalid : ∀ vpn, lo ≤ vpn → vpn < lo + n → Valid (entry m.mem root vpn))
    (hflags : ∀ vpn, lo ≤ vpn → vpn < lo + n → pteFlags (entry m.mem root vpn) ≠ pteV)
    (hdata : doFree = true → ∀ vpn, lo ≤ vpn → vpn < lo + n →
      pte2pa (entry m.mem root vpn) ∉ tables m.mem root) :
    ∃ m', uvmunmapLoop root doFree n (4096 * lo) m = .ok m' ∧
      Remap root ∅ (clearMap (entry m.mem root) lo n) m.mem m'.mem := by
  induction n generalizing lo m with
  | zero =>
      refine ⟨m, rfl, ?_⟩
      rw [clearMap_zero]
      exact Remap.of_frame h fun _ _ => rfl
  | succ n ih =>
      have hlo : lo < 2 ^ 26 := by omega
      obtain ⟨table, hnode, hturn⟩ := uvmunmapLoop_turn hlo (hvalid lo (by omega) (by omega))
        (hflags lo (by omega) (by omega))
      rw [hturn]
      generalize hm₁ : (if doFree = true then m.kfree (pte2pa (entry m.mem root lo)) else m) = m₁
      -- A page that is freed is none of the tables.
      have hfreed : Remap root ∅ (entry m.mem root) m.mem m₁.mem := by
        apply Remap.of_frame h
        intro page hpage
        rw [← hm₁]
        split
        · rename_i hfree
          apply fill_of_ne
          rintro rfl
          exact hdata hfree lo (by omega) (by omega) hpage
        · rfl
      have hnode₁ := hfreed.node_some (show (pathOf lo).length ≤ 2 by simp [pathOf]) hnode
      have hstored := hfreed.trans
        (Remap.store hfreed.tree (show lo < 2 ^ 27 by omega) hnode₁ 0)
      have hentry : ∀ vpn, vpn < 2 ^ 27 → entry (m₁.store table (idx 0 lo) 0).mem root vpn
          = Function.update (entry m.mem root) lo 0 vpn := by
        intro vpn hvpn
        rw [hstored.entry_eq vpn hvpn, Function.update_apply, Function.update_apply,
          hfreed.entry_eq vpn hvpn]
      have hother : ∀ vpn, lo + 1 ≤ vpn → vpn < lo + 1 + n →
          entry (m₁.store table (idx 0 lo) 0).mem root vpn = entry m.mem root vpn := by
        intro vpn hlo' hhi
        rw [hentry vpn (by omega), Function.update_of_ne (by omega)]
      have htables : tables (m₁.store table (idx 0 lo) 0).mem root = tables m.mem root :=
        nodes_congr fun path hlength => hstored.old path hlength (by simp)
      obtain ⟨m', hloop, hremap⟩ := ih hstored.tree (show lo + 1 + n ≤ 2 ^ 26 by omega)
        (fun vpn hlo' hhi => by
          rw [hother vpn hlo' hhi]
          exact hvalid vpn (by omega) (by omega))
        (fun vpn hlo' hhi => by
          rw [hother vpn hlo' hhi]
          exact hflags vpn (by omega) (by omega))
        (fun hfree vpn hlo' hhi => by
          rw [hother vpn hlo' hhi, htables]
          exact hdata hfree vpn (by omega) (by omega))
      refine ⟨m', hloop, ?_⟩
      have hboth := hstored.trans hremap
      rw [Finset.empty_union, Finset.empty_union] at hboth
      apply hboth.congr
      intro vpn hvpn
      rw [← clearMap_succ]
      simp only [clearMap, hentry vpn hvpn]

end Turn

section Tables

variable {root : ℕ} {m : Machine}

/-- Unmapping without freeing. -/
theorem uvmunmapLoop_keep {n lo : ℕ} (h : Ready m root) (hend : lo + n ≤ 2 ^ 26)
    (hvalid : ∀ vpn, lo ≤ vpn → vpn < lo + n → Valid (entry m.mem root vpn)) :
    ∃ m', uvmunmapLoop root false n (4096 * lo) m = .ok m' ∧ m'.free = m.free ∧
      Edit root ∅ (clearMap (entry m.mem root) lo n) m m' := by
  induction n generalizing lo m with
  | zero =>
      refine ⟨m, rfl, rfl, ?_⟩
      rw [clearMap_zero]
      exact Edit.refl h
  | succ n ih =>
      have hlo : lo < 2 ^ 26 := by omega
      have hvalid₀ := hvalid lo (by omega) (by omega)
      obtain ⟨table, hnode, hturn⟩ :=
        uvmunmapLoop_turn hlo hvalid₀ (h.table.flags_ne hvalid₀)
      have hedit := Edit.store h hlo hnode 0 fun hzero => absurd hzero not_valid_zero
      have hready := hedit.ready h
      have hvalid' : ∀ vpn, lo + 1 ≤ vpn → vpn < lo + 1 + n →
          Valid (entry (m.store table (idx 0 lo) 0).mem root vpn) := by
        intro vpn hlo' hhi
        rw [hedit.entry_eq vpn (by omega), Function.update_of_ne (by omega)]
        exact hvalid vpn (by omega) (by omega)
      obtain ⟨m', hrest, hfree, hedit'⟩ := ih hready (by omega) hvalid'
      refine ⟨m', ?_, hfree, ?_⟩
      · rw [hturn]
        exact hrest
      · have hboth := hedit.trans hedit'
        rw [Finset.empty_union] at hboth
        apply hboth.congr
        intro vpn hvpn
        rw [← clearMap_succ]
        simp only [clearMap, hedit.entry_eq vpn hvpn]

/-- `uvmunmap` without freeing. -/
theorem uvmunmap_keep {n lo va : ℕ} (hva : va = lo * 4096) (h : Ready m root)
    (hend : lo + n ≤ 2 ^ 26)
    (hvalid : ∀ vpn, lo ≤ vpn → vpn < lo + n → Valid (entry m.mem root vpn)) :
    ∃ m', uvmunmap m root va n false = .ok m' ∧ m'.free = m.free ∧
      Edit root ∅ (clearMap (entry m.mem root) lo n) m m' := by
  have haligned : ¬ (va % pgSize ≠ 0) := by
    rw [pgSize, hva]
    omega
  rw [uvmunmap, if_neg haligned, hva, Nat.mul_comm]
  exact uvmunmapLoop_keep h hend hvalid

end Tables

section Spaces

variable {root : ℕ} {m : Machine} {S : Set ℕ}

/-- A page goes back to the free list while its word is still there. -/
theorem Change.kfree_page (h : Space m.mem root S) (hapart : Apart m (held m.mem root S))
    {vpn : ℕ} (hvpn : vpn ∈ S) :
    Change root S (S \ {vpn}) ∅ (entry m.mem root) m
      (m.kfree (pte2pa (entry m.mem root vpn))) := by
  have hframe : ∀ other ∈ tables m.mem root,
      (m.kfree (pte2pa (entry m.mem root vpn))).mem other = m.mem other := by
    intro other hother
    apply fill_of_ne
    rintro rfl
    exact h.apart vpn hvpn hother
  have hheld : held (m.kfree (pte2pa (entry m.mem root vpn))).mem root (S \ {vpn})
      = held m.mem root (S \ {vpn}) := held_frame hframe
  have hsub : held m.mem root (S \ {vpn}) ⊆ held m.mem root S := by
    rintro page (htable | ⟨v, hv, rfl⟩)
    · exact Or.inl htable
    · exact Or.inr ⟨v, hv.1, rfl⟩
  have hout : pte2pa (entry m.mem root vpn) ∉ held m.mem root (S \ {vpn}) := by
    rintro (htable | ⟨v, hv, heq⟩)
    · exact h.apart vpn hvpn htable
    · exact hv.2 (h.inj v hv.1 vpn hvpn heq)
  have hnotfree : pte2pa (entry m.mem root vpn) ∉ m.free :=
    fun hmem => hapart.apart _ hmem (Or.inr ⟨vpn, hvpn, rfl⟩)
  refine ⟨Adds.of_node_eq fun path hlength => node_frame hframe hlength,
    (h.mono Set.sdiff_subset).frame hframe, ⟨?_, ?_, ?_, ?_⟩, fun v _ => entry_frame hframe v⟩
  · exact List.nodup_cons.mpr ⟨hnotfree, hapart.nodup⟩
  · intro page hpage
    rw [hheld]
    rcases List.mem_cons.mp hpage with rfl | hpage
    · exact hout
    · exact fun hmem => hapart.apart page hpage (hsub hmem)
  · intro page
    rw [hheld]
    change page ∈ _ ∨ page ∈ _ :: m.free ↔ _
    rw [List.mem_cons]
    constructor
    · rintro (hmem | rfl | hmem)
      · exact Or.inl (hsub hmem)
      · exact Or.inl (Or.inr ⟨vpn, hvpn, rfl⟩)
      · exact Or.inr hmem
    · rintro ((htable | ⟨v, hv, rfl⟩) | hmem)
      · exact Or.inl (Or.inl htable)
      · by_cases heq : v = vpn
        · subst heq
          exact Or.inr (Or.inl rfl)
        · exact Or.inl (Or.inr ⟨v, ⟨hv, heq⟩, rfl⟩)
      · exact Or.inr (Or.inr hmem)
  · intro page hpage _
    apply fill_of_ne
    rintro rfl
    exact hpage (Or.inr ⟨vpn, hvpn, rfl⟩)

/-- The loop of `uvmunmap` on owned pages puts them back on the free list. -/
theorem uvmunmapLoop_free {n lo : ℕ} (h : Space m.mem root S)
    (hapart : Apart m (held m.mem root S)) (hrange : ∀ vpn, lo ≤ vpn → vpn < lo + n → vpn ∈ S) :
    ∃ m', uvmunmapLoop root true n (4096 * lo) m = .ok m' ∧
      m'.free.length = m.free.length + n ∧
      Change root S (S \ Set.Ico lo (lo + n)) ∅ (clearMap (entry m.mem root) lo n)
        m m' := by
  induction n generalizing lo m S with
  | zero =>
      have hnone : S \ Set.Ico lo (lo + 0) = S := by
        ext vpn
        simp only [Set.mem_sdiff, Set.mem_Ico]
        constructor
        · exact fun hv => hv.1
        · exact fun hv => ⟨hv, by omega⟩
      refine ⟨m, rfl, rfl, ?_⟩
      rw [hnone, clearMap_zero]
      exact h.refl hapart
  | succ n ih =>
      have hlo : lo ∈ S := hrange lo (by omega) (by omega)
      obtain ⟨table, hnode, hturn⟩ :=
        uvmunmapLoop_turn (h.small lo hlo) (h.mapped lo hlo) (h.table.flags_ne (h.mapped lo hlo))
      have hfreed := Change.kfree_page h hapart hlo
      have hapart₁ := hfreed.apart hapart
      have hready₁ := hfreed.space.ready hapart₁
      have hnode₁ := hfreed.node_some (show (pathOf lo).length ≤ 2 by simp [pathOf]) hnode
      have hedit := Edit.store hready₁ (h.small lo hlo) hnode₁ 0
        fun hzero => absurd hzero not_valid_zero
      have hcleared := hedit.change hfreed.space hapart₁ (by
        intro v hv
        rw [Function.update_of_ne hv.2])
      have hboth := hfreed.trans hcleared
      have hapart₂ := hcleared.apart hapart₁
      have hrange' : ∀ vpn, lo + 1 ≤ vpn → vpn < lo + 1 + n → vpn ∈ S \ {lo} := by
        intro vpn hlo' hhi
        exact ⟨hrange vpn (by omega) (by omega), by
          rw [Set.mem_singleton_iff]
          omega⟩
      obtain ⟨m', hrest, hlength, hchange⟩ := ih hcleared.space hapart₂ hrange'
      refine ⟨m', ?_, ?_, ?_⟩
      · rw [hturn]
        exact hrest
      · rw [hlength]
        change (_ :: m.free).length + n = _
        rw [List.length_cons]
        omega
      · have hsets : (S \ {lo}) \ Set.Ico (lo + 1) (lo + 1 + n)
            = S \ Set.Ico lo (lo + (n + 1)) := by
          ext vpn
          simp only [Set.mem_sdiff, Set.mem_singleton_iff, Set.mem_Ico]
          constructor
          · rintro ⟨⟨hv, hne⟩, hout⟩
            exact ⟨hv, by omega⟩
          · rintro ⟨hv, hout⟩
            exact ⟨⟨hv, by omega⟩, by omega⟩
        have hall := hboth.trans hchange
        rw [hsets, Finset.empty_union, Finset.empty_union] at hall
        apply hall.congr
        intro vpn hvpn
        rw [← clearMap_succ]
        simp only [clearMap, hcleared.entry_eq vpn hvpn, Function.update_apply,
          hfreed.entry_eq vpn hvpn]

/-- `uvmunmap` of owned pages. -/
theorem uvmunmap_free {n lo va : ℕ} (hva : va = lo * 4096) (h : Space m.mem root S)
    (hapart : Apart m (held m.mem root S)) (hrange : ∀ vpn, lo ≤ vpn → vpn < lo + n → vpn ∈ S) :
    ∃ m', uvmunmap m root va n true = .ok m' ∧ m'.free.length = m.free.length + n ∧
      Change root S (S \ Set.Ico lo (lo + n)) ∅ (clearMap (entry m.mem root) lo n)
        m m' := by
  have haligned : ¬ (va % pgSize ≠ 0) := by
    rw [pgSize, hva]
    omega
  rw [uvmunmap, if_neg haligned, hva, Nat.mul_comm]
  exact uvmunmapLoop_free h hapart hrange

end Spaces

end OperateSystem.Vm

import OperateSystem.Vm.Ranges
import OperateSystem.Vm.Unmap

/-!
# The page table implements a finite map

What `walk`, `mappages` and `uvmunmap` do, said in terms of addresses: a page table
translates a virtual address to a physical one with flags, or not at all.  The
tables are as general as the code takes them: trees without sharing, whose last
level may hold any words.  That no table is used as a data page can be spoiled by
the caller of `mappages` only, who chooses the physical pages.
-/

namespace OperateSystem.Vm

open OperateSystem.PointerTree

/-- What a page-table entry says of an address of its page. -/
def physical (pte : Word) (va : ℕ) : Option (ℕ × Word) :=
  if Valid pte then some (pte2pa pte * pgSize + va % pgSize, pteFlags pte) else none

/-- The physical address and the flags that a page table gives an address. -/
def translate (mem : ℕ → Page) (root va : ℕ) : Option (ℕ × Word) :=
  physical (entry mem root (va / pgSize)) va

/-- The pages that a tree maps. -/
def dataPages (mem : ℕ → Page) (root : ℕ) : Set ℕ :=
  { page | ∃ vpn, vpn < 2 ^ 27 ∧ Valid (entry mem root vpn) ∧ pte2pa (entry mem root vpn) = page }

/-- A tree of table pages, none of which is used as a data page. -/
structure WellFormed (mem : ℕ → Page) (root : ℕ) : Prop extends Tree mem root where
  data : Disjoint (tables mem root) (dataPages mem root)

/-- The pages on the free list are neither tables nor data pages. -/
def Unused (m : Machine) (root : ℕ) : Prop :=
  Apart m (tables m.mem root ∪ dataPages m.mem root)

section Words

variable {page : ℕ} {perm : Word}

theorem flags_or_valid (hperm : pteFlags perm = perm) :
    pteFlags (perm ||| pteV) = perm ||| pteV := by
  have hvalid : pteFlags pteV = pteV := by decide
  rw [pteFlags] at hperm hvalid ⊢
  rw [BitVec.and_or_distrib_right, hperm, hvalid]

theorem pte2pa_mapped (hpage : page < 2 ^ 52) (hperm : pteFlags perm = perm) :
    pte2pa (pa2pte page ||| perm ||| pteV) = page := by
  rw [BitVec.or_assoc, pte2pa_entry hpage]
  rw [← flags_or_valid hperm]
  exact pteFlags_toNat _

theorem physical_mapped (hpage : page < 2 ^ 52) (hperm : pteFlags perm = perm) (va : ℕ) :
    physical (pa2pte page ||| perm ||| pteV) va
      = some (page * pgSize + va % pgSize, perm ||| pteV) := by
  rw [physical, if_pos (valid_entry page perm), pte2pa_mapped hpage hperm, BitVec.or_assoc,
    pteFlags_entry hpage (flags_or_valid hperm)]

theorem physical_eq_none {pte : Word} {va : ℕ} : physical pte va = none ↔ ¬ Valid pte := by
  rw [physical]
  split <;> simp_all

end Words

section Trees

variable {root : ℕ} {m m' : Machine} {mem mem' : ℕ → Page} {added : Finset (List (Fin 512))}
  {map : ℕ → Word}

theorem WellFormed.data_apart (h : WellFormed mem root) {vpn : ℕ} (hvpn : vpn < 2 ^ 27)
    (hvalid : Valid (entry mem root vpn)) : pte2pa (entry mem root vpn) ∉ tables mem root :=
  fun htable => Set.disjoint_left.mp h.data htable ⟨vpn, hvpn, hvalid, rfl⟩

/-- A tree stays well-formed when the pages it maps are neither old nor new
tables. -/
theorem WellFormed.of_remap {new : Set ℕ} (h : Remap root added map mem mem')
    (htables : tables mem' root ⊆ tables mem root ∪ new)
    (hdata : ∀ vpn, vpn < 2 ^ 27 → Valid (map vpn) →
      pte2pa (map vpn) ∉ tables mem root ∪ new) : WellFormed mem' root := by
  refine ⟨h.tree, ?_⟩
  rw [Set.disjoint_left]
  rintro page hpage ⟨vpn, hvpn, hvalid, rfl⟩
  rw [h.entry_eq vpn hvpn] at hvalid hpage
  exact hdata vpn hvpn hvalid (htables hpage)

theorem Graft.tables_subset_free (h : Graft root added map m m') :
    tables m'.mem root ⊆ tables m.mem root ∪ { page | page ∈ m.free } :=
  fun page hpage => (h.moves.conserve page).mp (Or.inl hpage)

theorem Unused.planted (h : Unused m root) (htree : Tree m.mem root) : Planted m root where
  nodup := h.nodup
  apart := fun page hpage htable => h.apart page hpage (Or.inl htable)
  bounded := h.bounded
  tree := htree

/-- What is mapped already is none of the tables there are or may come. -/
theorem WellFormed.entry_apart (h : WellFormed m.mem root) (hunused : Unused m root) {vpn : ℕ}
    (hvpn : vpn < 2 ^ 27) (hvalid : Valid (entry m.mem root vpn)) :
    pte2pa (entry m.mem root vpn) ∉ tables m.mem root ∪ { page | page ∈ m.free } := by
  rintro (htable | hfree)
  · exact h.data_apart hvpn hvalid htable
  · exact hunused.apart _ hfree (Or.inr ⟨vpn, hvpn, hvalid, rfl⟩)

theorem Remap.translate_eq (h : Remap root added map mem mem') {va : ℕ} (hva : va < maxVa) :
    translate mem' root va = physical (map (va / pgSize)) va := by
  rw [maxVa] at hva
  rw [translate, h.entry_eq _ (by rw [pgSize]; omega)]

end Trees

section Operations

variable {root : ℕ} {m : Machine}

/-- `walk(pagetable, va, alloc)` changes no translation. -/
theorem walk_translate (h : WellFormed m.mem root) (hunused : Unused m root) {va : ℕ}
    (hva : va < maxVa) :
    ∃ pte m', walk m root va true = .ok (pte, m') ∧
      (∀ va', va' < maxVa → translate m'.mem root va' = translate m.mem root va') ∧
      WellFormed m'.mem root := by
  have hvpn : va / 4096 < 2 ^ 26 := by
    rw [maxVa] at hva
    omega
  have hpage : walk m root va true = walk m root (4096 * (va / 4096)) true := by
    have hsplit : va = 4096 * (va / 4096) + va % 4096 := by omega
    have hindex : ∀ level, px level va = px level (4096 * (va / 4096)) := by
      intro level
      rw [px_start]
      nth_rewrite 1 [hsplit]
      exact px_vpn (Nat.mod_lt _ (by decide))
    have hlimit : maxVa ≤ va ↔ maxVa ≤ 4096 * (va / 4096) := by
      rw [maxVa]
      omega
    simp only [walk, hindex, hlimit]
  have hkeeps : ∀ {added : Finset (List (Fin 512))} {m' : Machine},
      Graft root added (entry m.mem root) m m' →
      (∀ va', va' < maxVa → translate m'.mem root va' = translate m.mem root va') ∧
        WellFormed m'.mem root := by
    intro added m' hgraft
    exact ⟨fun va' hva' => hgraft.translate_eq hva',
      WellFormed.of_remap hgraft.toRemap hgraft.tables_subset_free
        fun vpn hvpn hvalid => h.entry_apart hunused hvpn hvalid⟩
  rw [hpage]
  rcases walk_graft (hunused.planted h.toTree) hvpn with
    ⟨table, m', hwalk, -, hgraft, -⟩ | ⟨added, m', hwalk, -, hgraft, -⟩
  · exact ⟨_, m', hwalk, hkeeps hgraft⟩
  · exact ⟨_, m', hwalk, hkeeps hgraft⟩

/-- `walk(pagetable, va, 0)` finds the word that is translated. -/
theorem walk_finds (m : Machine) (root : ℕ) {va : ℕ} (hva : va < maxVa) :
    ∃ pte, walk m root va false = .ok (pte, m) ∧
      translate m.mem root va = pte.bind fun slot => physical (m.mem slot.1 slot.2) va := by
  have hvpn : va / 4096 < 2 ^ 26 := by
    rw [maxVa] at hva
    omega
  have hwalk := walk_false m root hvpn (Nat.mod_lt va (show 0 < 4096 by decide))
  rw [Nat.div_add_mod] at hwalk
  refine ⟨_, hwalk, ?_⟩
  rw [translate, pgSize]
  cases hnode : node next m.mem root (pathOf (va / 4096)) with
  | none =>
      rw [entry_of_none hnode]
      exact physical_eq_none.mpr not_valid_zero
  | some table =>
      rw [entry_of_node hnode]
      rfl

/-- What is expected of `mappages`: the pages of the range, which were not mapped,
translate to consecutive physical pages, and nothing else changes. -/
def MapsRange (m : Machine) (root va size page : ℕ) (perm : Word) : Prop :=
  (∀ va', pgRoundDown va ≤ va' → va' < pgRoundDown (va + size - 1) + pgSize →
    translate m.mem root va' = none) →
  ∃ ok m', mappages m root va size page perm = .ok (ok, m') ∧
    (ok = true → ∀ va', va' < maxVa → translate m'.mem root va'
      = if pgRoundDown va ≤ va' ∧ va' < pgRoundDown (va + size - 1) + pgSize then
          some (page * pgSize + (va' - pgRoundDown va), perm ||| pteV)
        else translate m.mem root va') ∧
    ((∀ page', page ≤ page' → page' * pgSize + pgRoundDown va
        ≤ page * pgSize + pgRoundDown (va + size - 1) →
      page' ∉ tables m.mem root ∧ page' ∉ m.free) → WellFormed m'.mem root)

theorem mappages_translate (h : WellFormed m.mem root) (hunused : Unused m root)
    {va size page : ℕ} {perm : Word} (hsize : 0 < size) (hend : va + size ≤ maxVa)
    (hpage : page * pgSize < 2 ^ 56) (hperm : pteFlags perm = perm) :
    MapsRange m root va size page perm := by
  intro hvacant
  obtain ⟨lo, hlo⟩ : ∃ lo, va / 4096 = lo := ⟨_, rfl⟩
  obtain ⟨n, hn⟩ : ∃ n, (va + size - 1) / 4096 = lo + n :=
    ⟨(va + size - 1) / 4096 - lo, by omega⟩
  have hfirst : pgRoundDown va = 4096 * lo := by rw [pgRoundDown, pgSize, hlo, Nat.mul_comm]
  have hlast : pgRoundDown (va + size - 1) = 4096 * (lo + n) := by
    rw [pgRoundDown, pgSize, hn, Nat.mul_comm]
  rw [hfirst, hlast] at hvacant ⊢
  rw [maxVa] at hend
  rw [pgSize] at hpage
  have hvacant' : ∀ vpn, lo ≤ vpn → vpn ≤ lo + n → ¬ Valid (entry m.mem root vpn) := by
    intro vpn hlo' hhi
    have hnone := hvacant (4096 * vpn) (by omega) (by rw [pgSize]; omega)
    rwa [translate, physical_eq_none, pgSize, Nat.mul_div_cancel_left _ (by decide)] at hnone
  -- A word of the map is an old one, or that of the page it is mapped to.
  have hword : ∀ k, k ≤ n + 1 → ∀ vpn, vpn < 2 ^ 27 → (∃ ofs, ofs ≤ n ∧
      rangeMap (entry m.mem root) lo k page perm vpn = pa2pte (page + ofs) ||| perm ||| pteV) ∨
      rangeMap (entry m.mem root) lo k page perm vpn = entry m.mem root vpn := by
    intro k hk vpn _
    rw [rangeMap]
    split
    · exact Or.inl ⟨vpn - lo, by omega, rfl⟩
    · exact Or.inr rfl
  have hkeeps : ∀ {added : Finset (List (Fin 512))} {k : ℕ} {m' : Machine}, k ≤ n + 1 →
      Graft root added (rangeMap (entry m.mem root) lo k page perm) m m' →
      (∀ page', page ≤ page' → page' * pgSize + 4096 * lo ≤ page * pgSize + 4096 * (lo + n) →
        page' ∉ tables m.mem root ∧ page' ∉ m.free) → WellFormed m'.mem root := by
    intro added k m' hk hgraft hapart
    refine WellFormed.of_remap hgraft.toRemap hgraft.tables_subset_free ?_
    intro vpn hvpn hvalid
    rcases hword k hk vpn hvpn with ⟨ofs, hofs, hmapped⟩ | hold
    · rw [hmapped, pte2pa_mapped (by omega) hperm]
      obtain ⟨htable, hfree⟩ := hapart (page + ofs) (by omega) (by rw [pgSize]; omega)
      rintro (hmem | hmem)
      · exact htable hmem
      · exact hfree hmem
    · rw [hold] at hvalid ⊢
      exact h.entry_apart hunused hvpn hvalid
  rcases mappages_graft (hunused.planted h.toTree) hsize hlo hn (by omega) hvacant' page perm with
    ⟨m', hmap, hgraft, -⟩ | ⟨added, k, m', hmap, -, hk, hgraft, -⟩
  · refine ⟨true, m', hmap, ?_, hkeeps le_rfl hgraft⟩
    intro _ va' hva'
    rw [hgraft.translate_eq hva', rangeMap, pgSize]
    by_cases hin : 4096 * lo ≤ va' ∧ va' < 4096 * (lo + n) + 4096
    · have haddr : (page + (va' / 4096 - lo)) * 4096 + va' % 4096
          = page * 4096 + (va' - 4096 * lo) := by omega
      rw [if_pos (by omega), if_pos hin, physical_mapped (by omega) hperm, pgSize, haddr]
    · rw [if_neg (by omega), if_neg hin, translate, pgSize]
  · exact ⟨false, m', hmap, by simp, hkeeps (by omega) hgraft⟩

/-- What is expected of `uvmunmap`: the pages, which were mapped as leaves, translate
to nothing, and nothing else changes. -/
def UnmapsRange (m : Machine) (root va npages : ℕ) (doFree : Bool) : Prop :=
  (∀ va', va ≤ va' → va' < va + npages * pgSize →
    ∃ pa flags, translate m.mem root va' = some (pa, flags) ∧ flags ≠ pteV) →
  ∃ m', uvmunmap m root va npages doFree = .ok m' ∧
    (∀ va', va' < maxVa → translate m'.mem root va'
      = if va ≤ va' ∧ va' < va + npages * pgSize then none else translate m.mem root va') ∧
    WellFormed m'.mem root

theorem uvmunmap_translate (h : WellFormed m.mem root) {va npages : ℕ} {doFree : Bool}
    (haligned : va % pgSize = 0) (hend : va + npages * pgSize ≤ maxVa) :
    UnmapsRange m root va npages doFree := by
  intro hmapped
  rw [pgSize] at hmapped haligned hend ⊢
  rw [maxVa] at hend
  obtain ⟨lo, rfl⟩ : ∃ lo, va = 4096 * lo := ⟨va / 4096, by omega⟩
  have hleaf : ∀ vpn, lo ≤ vpn → vpn < lo + npages →
      Valid (entry m.mem root vpn) ∧ pteFlags (entry m.mem root vpn) ≠ pteV := by
    intro vpn hlo hhi
    obtain ⟨pa, flags, htranslate, hflags⟩ := hmapped (4096 * vpn) (by omega) (by omega)
    rw [translate, pgSize, Nat.mul_div_cancel_left _ (by decide), physical] at htranslate
    split at htranslate
    · rename_i hvalid
      cases htranslate
      exact ⟨hvalid, hflags⟩
    · cases htranslate
  have hdata : doFree = true → ∀ vpn, lo ≤ vpn → vpn < lo + npages →
      pte2pa (entry m.mem root vpn) ∉ tables m.mem root :=
    fun _ vpn hlo hhi => h.data_apart (by omega) (hleaf vpn hlo hhi).1
  obtain ⟨m', hloop, hremap⟩ := uvmunmapLoop_remap h.toTree (by omega)
    (fun vpn hlo hhi => (hleaf vpn hlo hhi).1) (fun vpn hlo hhi => (hleaf vpn hlo hhi).2) hdata
  refine ⟨m', ?_, ?_, ?_⟩
  · rw [uvmunmap, if_neg (by rw [pgSize]; omega), hloop]
  · intro va' hva'
    rw [hremap.translate_eq hva', clearMap, pgSize]
    by_cases hin : 4096 * lo ≤ va' ∧ va' < 4096 * lo + npages * 4096
    · rw [if_pos (by omega), if_pos hin]
      exact physical_eq_none.mpr not_valid_zero
    · rw [if_neg (by omega), if_neg hin, translate, pgSize]
  · have htables : tables m'.mem root ⊆ tables m.mem root ∪ ∅ := by
      rw [Set.union_empty]
      exact (nodes_congr fun path hlength => hremap.old path hlength (by simp)).subset
    refine WellFormed.of_remap hremap htables ?_
    intro vpn hvpn hvalid
    rw [Set.union_empty]
    rw [clearMap] at hvalid ⊢
    split at hvalid <;> rename_i hin
    · exact absurd hvalid not_valid_zero
    · rw [if_neg hin]
      exact h.data_apart hvpn hvalid

/-- `mappages`, `uvmunmap` and `walk` act on a page table as on a finite map, and
keep it well-formed. -/
theorem pagetable_finite_map (h : WellFormed m.mem root) (hunused : Unused m root) {va : ℕ}
    (hva : va < maxVa) (haligned : va % pgSize = 0) :
    (∀ size page perm, 0 < size → va + size ≤ maxVa → page * pgSize < 2 ^ 56 →
      pteFlags perm = perm → MapsRange m root va size page perm) ∧
    (∀ npages doFree, va + npages * pgSize ≤ maxVa → UnmapsRange m root va npages doFree) ∧
    (∃ pte m', walk m root va true = .ok (pte, m') ∧
      (∀ va', va' < maxVa → translate m'.mem root va' = translate m.mem root va') ∧
      WellFormed m'.mem root) ∧
    ∃ pte, walk m root va false = .ok (pte, m) ∧
      translate m.mem root va = pte.bind fun slot => physical (m.mem slot.1 slot.2) va := by
  refine ⟨?_, ?_, walk_translate h hunused hva, walk_finds m root hva⟩
  · intro size page perm hsize hend hpage hperm
    exact mappages_translate h hunused hsize hend hpage hperm
  · intro npages doFree hend
    exact uvmunmap_translate h haligned hend

/-- A blank table on page 1 beside two free pages. -/
def blank : Machine := ⟨fun _ _ => 0, [2, 3]⟩

theorem blank_wellFormed : WellFormed blank.mem 1 ∧ Unused blank 1 := by
  have hblank : blank.mem 1 = fun _ => 0 := rfl
  have hnone : dataPages blank.mem 1 = ∅ := by
    ext page
    simp only [dataPages, entry_of_blank hblank, Set.mem_ofPred_eq, Set.mem_empty_iff_false,
      iff_false]
    rintro ⟨vpn, -, hvalid, -⟩
    exact not_valid_zero hvalid
  refine ⟨⟨(table_of_blank hblank (by decide)).tree, by simp [hnone]⟩, ?_⟩
  rw [Unused, hnone, Set.union_empty, tables_of_blank hblank]
  exact ⟨by decide, by decide, by decide⟩

theorem blank_translate (va : ℕ) : translate blank.mem 1 va = none := by
  rw [translate, entry_of_blank rfl]
  exact physical_eq_none.mpr not_valid_zero

/-- Page 5 is mapped at address 0, and the table has taken both free pages. -/
theorem exists_mapped : ∃ m', mappages blank 1 0 4096 5 (pteR ||| pteW) = .ok (true, m') ∧
    Unused m' 1 := by
  obtain ⟨hwell, hunused⟩ := blank_wellFormed
  have hblank : blank.mem 1 = fun _ => 0 := rfl
  have hentry := entry_of_blank hblank
  rcases mappages_graft (hunused.planted hwell.toTree)
    (show 0 < 4096 by decide) (show 0 / 4096 = 0 from rfl)
    (show (0 + 4096 - 1) / 4096 = 0 + 0 from rfl)
    (by decide)
    (fun vpn _ _ => by rw [hentry]; exact not_valid_zero) 5 (pteR ||| pteW) with
    ⟨m', hmap, hgraft, -⟩ | ⟨_, _, _, -, -, -, -, hcard⟩
  · have hfew : ∀ page ∈ m'.free, page ≤ 3 := by
      intro page hpage
      have hold := (hgraft.moves.conserve page).mp (Or.inr hpage)
      rw [tables_of_blank hblank] at hold
      rcases hold with rfl | hfree
      · decide
      · have hpage : page = 2 ∨ page = 3 := by simpa [blank] using hfree
        omega
    refine ⟨m', hmap, hgraft.moves.nodup, ?_, ?_⟩
    · rintro page hpage (htable | ⟨vpn, hvpn, hvalid, rfl⟩)
      · exact hgraft.moves.apart page hpage htable
      · have hle := hfew _ hpage
        rw [hgraft.entry_eq vpn hvpn, rangeMap] at hvalid hle
        split at hvalid <;> rename_i hin
        · obtain rfl : vpn = 0 := by omega
          rw [if_pos hin, pte2pa_mapped (by decide) (by decide)] at hle
          omega
        · rw [hentry] at hvalid
          exact not_valid_zero hvalid
    · intro page hpage
      have hle := hfew page hpage
      omega
  · rw [missing_of_blank hblank] at hcard
    exact absurd hcard (by decide)

theorem pagetable_finite_map_blank :
    ∃ m' m'', mappages blank 1 0 4096 5 (pteR ||| pteW) = .ok (true, m') ∧
      translate m'.mem 1 100 = some (5 * pgSize + 100, pteR ||| pteW ||| pteV) ∧
      WellFormed m'.mem 1 ∧ uvmunmap m' 1 0 1 true = .ok m'' ∧ translate m''.mem 1 100 = none ∧
      WellFormed m''.mem 1 := by
  obtain ⟨hwell, hunused⟩ := blank_wellFormed
  obtain ⟨m', hmapped, hunused'⟩ := exists_mapped
  obtain ⟨ok, m₁, hmap, htranslate, hkeeps⟩ :=
    (pagetable_finite_map hwell hunused (show 0 < maxVa by decide) (by decide)).1 4096 5
      (pteR ||| pteW) (by decide) (by decide) (by decide) (by decide)
      fun va' _ _ => blank_translate va'
  rw [hmapped] at hmap
  cases hmap
  have hwell' : WellFormed m'.mem 1 := by
    refine hkeeps fun page' hlo _ => ?_
    rw [tables_of_blank rfl]
    refine ⟨?_, ?_⟩
    · rintro rfl
      omega
    · intro hfree
      have hpage : page' = 2 ∨ page' = 3 := by simpa [blank] using hfree
      omega
  -- The page that was mapped is unmapped again and given back.
  obtain ⟨m'', hcleared, hnone, hwell''⟩ :=
    (pagetable_finite_map hwell' hunused' (show 0 < maxVa by decide) (by decide)).2.1 1 true
      (by decide) fun va' hlo hhi => by
        rw [htranslate rfl va' (hhi.trans (by decide)), if_pos ⟨hlo, hhi⟩]
        exact ⟨_, _, rfl, by decide⟩
  refine ⟨m', m'', hmapped, htranslate rfl 100 (by decide), hwell', hcleared, ?_, hwell''⟩
  rw [hnone 100 (by decide), if_pos (by decide)]

/-- A page table may be mapped in itself, as the kernel's is: then a table is used as
a data page. -/
theorem mappages_not_wellFormed : ¬ ∀ (m m' : Machine) (root va size page : ℕ) (perm : Word),
    WellFormed m.mem root → Unused m root → va < maxVa → va % pgSize = 0 → 0 < size →
      va + size ≤ maxVa → page * pgSize < 2 ^ 56 → pteFlags perm = perm →
      (∀ va', pgRoundDown va ≤ va' → va' < pgRoundDown (va + size - 1) + pgSize →
        translate m.mem root va' = none) →
      mappages m root va size page perm = .ok (true, m') → WellFormed m'.mem root := by
  intro hall
  obtain ⟨hwell, hunused⟩ := blank_wellFormed
  have hblank : blank.mem 1 = fun _ => 0 := rfl
  have hentry := entry_of_blank hblank
  rcases mappages_graft (hunused.planted hwell.toTree)
    (show 0 < 4096 by decide) (show 0 / 4096 = 0 from rfl)
    (show (0 + 4096 - 1) / 4096 = 0 + 0 from rfl)
    (by decide)
    (fun vpn _ _ => by rw [hentry]; exact not_valid_zero) 1 (pteR ||| pteW) with
    ⟨m', hmap, hgraft, -⟩ | ⟨_, _, _, -, -, -, -, hcard⟩
  · have hafter := hall blank m' 1 0 4096 1 (pteR ||| pteW) hwell hunused (by decide) (by decide)
      (by decide) (by decide) (by decide) (by decide)
      (fun va' _ _ => blank_translate va') hmap
    have hself : entry m'.mem 1 0 = pa2pte 1 ||| (pteR ||| pteW) ||| pteV :=
      hgraft.entry_eq 0 (by decide)
    have htarget := hafter.data_apart (show 0 < 2 ^ 27 by decide) (by
      rw [hself]
      exact valid_entry _ _)
    rw [hself, pte2pa_mapped (by decide) (by decide)] at htarget
    exact htarget (root_mem_nodes 2)
  · rw [missing_of_blank hblank] at hcard
    revert hcard
    decide

end Operations

end OperateSystem.Vm

import OperateSystem.Vm.Space

/-!
# Building kernel page tables

The tables that `kvminit` and `kvminit_proc` build are lists of ranges mapped one
after the other into a blank page.  What a table of this kind costs depends only
on the virtual pages it maps.
-/

namespace OperateSystem.Vm

open OperateSystem.PointerTree

/-- The table pages below the root that the virtual pages need. -/
def tablesFor (vpns : Finset ℕ) : Finset (List (Fin 512)) := vpns.biUnion pathsOf

theorem mem_tablesFor {vpns : Finset ℕ} {path : List (Fin 512)} :
    path ∈ tablesFor vpns ↔ ∃ vpn ∈ vpns, path ∈ pathsOf vpn :=
  Finset.mem_biUnion

theorem tablesFor_union (vpns vpns' : Finset ℕ) :
    tablesFor (vpns ∪ vpns') = tablesFor vpns ∪ tablesFor vpns' :=
  Finset.union_biUnion

/-- A table built from a blank page, which maps `vpns` as `map` says and has the
tables for them. -/
structure Built (root : ℕ) (vpns : Finset ℕ) (map : ℕ → Word) (m m' : Machine) : Prop where
  table : Table m'.mem root
  moves : Moves ∅ (tables m'.mem root) m m'
  count : m.free.length = m'.free.length + 1 + (tablesFor vpns).card
  entry_eq : ∀ vpn, vpn < 2 ^ 26 → entry m'.mem root vpn = map vpn
  missing_eq : ∀ vpns', missing m'.mem root vpns' = tablesFor vpns' \ tablesFor vpns

section Blank

variable {mem : ℕ → Page} {root : ℕ}

theorem node_of_blank (h : mem root = fun _ => 0) (path : List (Fin 512)) :
    node next mem root path = if path = [] then some root else none :=
  node_blank (fun i => by rw [h, next_zero]) path

theorem tables_of_blank (h : mem root = fun _ => 0) : tables mem root = {root} := by
  ext page
  rw [Set.mem_singleton_iff]
  constructor
  · rintro ⟨path, -, hpath⟩
    rw [node_of_blank h] at hpath
    split at hpath
    · exact (Option.some.inj hpath).symm
    · cases hpath
  · rintro rfl
    exact root_mem_nodes 2

theorem table_of_blank (h : mem root = fun _ => 0) (hbound : root < 2 ^ 52) :
    Table mem root := by
  have hroot : ∀ path page, node next mem root path = some page → page = root ∧ path = [] := by
    intro path page hpath
    rw [node_of_blank h] at hpath
    split at hpath
    · rename_i hnil
      exact ⟨(Option.some.inj hpath).symm, hnil⟩
    · cases hpath
  refine ⟨?_, ?_, ?_, ?_, hbound⟩
  · intro path path' page _ _ hpath hpath'
    rw [(hroot path page hpath).2, (hroot path' page hpath').2]
  · intro path page i _ hpath hvalid
    rw [(hroot path page hpath).1, h] at hvalid
    exact absurd hvalid not_valid_zero
  · intro path page i hlength hpath
    rw [(hroot path page hpath).2] at hlength
    cases hlength
  · intro i hvalid
    rw [h] at hvalid
    exact absurd hvalid not_valid_zero

theorem entry_of_blank (h : mem root = fun _ => 0) (vpn : ℕ) : entry mem root vpn = 0 := by
  apply entry_of_none
  rw [node_of_blank h, if_neg (by simp [pathOf])]

theorem missing_of_blank (h : mem root = fun _ => 0) (vpns : Finset ℕ) :
    missing mem root vpns = tablesFor vpns := by
  apply Finset.filter_true_of_mem
  intro path hpath
  obtain ⟨vpn, -, hpath⟩ := Finset.mem_biUnion.mp hpath
  rw [node_of_blank h, if_neg]
  rintro rfl
  simp [pathsOf] at hpath

end Blank

section Built

variable {m m' m'' : Machine} {root : ℕ} {vpns vpns' : Finset ℕ} {map map' : ℕ → Word}

theorem Moves.take {page : ℕ} {free : List ℕ} (hapart : Apart m ∅) (hfree : m.free = page :: free)
    (content : Page) : Moves ∅ {page} m (take m page free content) := by
  have hnodup := hapart.nodup
  rw [hfree, List.nodup_cons] at hnodup
  refine ⟨hnodup.2, ?_, ?_, ?_⟩
  · rintro other hother rfl
    exact hnodup.1 hother
  · intro other
    rw [hfree, List.mem_cons]
    simp [Vm.take]
  · intro other _ hother
    apply take_of_ne
    rintro rfl
    exact hother (by simp [hfree])

/-- A page taken off the list and zeroed is an empty table. -/
theorem Built.blank {free : List ℕ} (hapart : Apart m ∅) (hfree : m.free = root :: free) :
    Built root ∅ (fun _ => 0) m (Vm.take m root free fun _ => 0) := by
  have hblank : (Vm.take m root free fun _ => 0).mem root = fun _ => 0 :=
    Function.update_self _ _ _
  have hbound := hapart.bounded root (by simp [hfree])
  refine ⟨table_of_blank hblank hbound, ?_, ?_, fun vpn _ => entry_of_blank hblank vpn, ?_⟩
  · rw [tables_of_blank hblank]
    exact Moves.take hapart hfree _
  · rw [hfree]
    rfl
  · intro vpns'
    rw [missing_of_blank hblank, show tablesFor ∅ = ∅ from rfl, Finset.sdiff_empty]

theorem Built.ready (h : Built root vpns map m m') (hapart : Apart m ∅) : Ready m' root := by
  refine ⟨⟨h.moves.nodup, h.moves.apart, ?_⟩, h.table⟩
  intro page hpage
  rcases (h.moves.conserve page).mp (Or.inr hpage) with hnone | hfree
  · exact absurd hnone (Set.notMem_empty page)
  · exact hapart.bounded page hfree

theorem Built.edit (h : Built root vpns map m m')
    (h' : Edit root (missing m'.mem root vpns') map' m' m'') :
    Built root (vpns ∪ vpns') map' m m'' := by
  refine ⟨h'.table, h.moves.trans h'.moves, ?_, h'.entry_eq, ?_⟩
  · have hcard := Finset.card_sdiff_add_card (tablesFor vpns') (tablesFor vpns)
    rw [Finset.union_comm, ← tablesFor_union] at hcard
    rw [h.count, h'.count, h.missing_eq]
    omega
  · intro vpns₂
    rw [h'.toAdds.missing_eq, h.missing_eq, h.missing_eq, tablesFor_union, sdiff_sdiff_left,
      Finset.sup_eq_union, Finset.union_sdiff_self_eq_union]

theorem Built.congr (h : Built root vpns map m m')
    (hmap : ∀ vpn, vpn < 2 ^ 26 → map vpn = map' vpn) : Built root vpns map' m m' :=
  { h with entry_eq := fun vpn hvpn => (h.entry_eq vpn hvpn).trans (hmap vpn hvpn) }

end Built

/-- Consecutive pages mapped with one call. -/
structure Range where
  vpn : ℕ
  pages : ℕ
  page : ℕ
  perm : Word

namespace Range

/-- The virtual pages of a range. -/
def vpns (r : Range) : Finset ℕ := Finset.Ico r.vpn (r.vpn + r.pages)

/-- A range that `mappages` can map. -/
structure Fits (r : Range) : Prop where
  pos : 0 < r.pages
  vpn : r.vpn + r.pages ≤ 2 ^ 26
  page : r.page + r.pages ≤ 2 ^ 52
  leaf : Leaf r.perm

end Range

/-- Mapping ranges one after the other. -/
def mapRanges (msg : String) (root : ℕ) (m : Machine) (ranges : List Range) :
    Except Fault Machine :=
  List.foldlM (fun m (r : Range) =>
    kvmmapInto msg m root (r.vpn * pgSize) r.page (r.pages * pgSize) r.perm) m ranges

/-- The map that the ranges make of `map`. -/
def rangesMap (map : ℕ → Word) (ranges : List Range) : ℕ → Word :=
  ranges.foldl (fun map r => rangeMap map r.vpn r.pages r.page r.perm) map

/-- The virtual pages of the ranges. -/
def rangesVpns (ranges : List Range) : Finset ℕ :=
  ranges.foldr (fun r vpns => r.vpns ∪ vpns) ∅

section Ranges

variable {m : Machine} {root : ℕ}

theorem rangesVpns_cons (r : Range) (ranges : List Range) :
    rangesVpns (r :: ranges) = r.vpns ∪ rangesVpns ranges := rfl

theorem mem_rangesVpns {ranges : List Range} {vpn : ℕ} :
    vpn ∈ rangesVpns ranges ↔ ∃ r ∈ ranges, vpn ∈ r.vpns := by
  induction ranges with
  | nil => simp [rangesVpns]
  | cons r ranges ih => simp [rangesVpns_cons, ih]

theorem rangeMap_of_notMem {map : ℕ → Word} {r : Range} {vpn : ℕ} (h : vpn ∉ r.vpns) :
    rangeMap map r.vpn r.pages r.page r.perm vpn = map vpn := by
  rw [Range.vpns, Finset.mem_Ico] at h
  rw [rangeMap, if_neg h]

theorem rangesMap_of_notMem {map : ℕ → Word} {ranges : List Range} {vpn : ℕ}
    (h : ∀ r ∈ ranges, vpn ∉ r.vpns) : rangesMap map ranges vpn = map vpn := by
  induction ranges generalizing map with
  | nil => rfl
  | cons r ranges ih =>
      rw [rangesMap, List.foldl_cons]
      exact (ih fun r' hr' => h r' (List.mem_cons_of_mem _ hr')).trans
        (rangeMap_of_notMem (h r (by simp)))

/-- The word for a page of a range, whatever the other ranges are. -/
theorem rangesMap_congr {map map' : ℕ → Word} {ranges : List Range} {vpn : ℕ}
    (h : map vpn = map' vpn) : rangesMap map ranges vpn = rangesMap map' ranges vpn := by
  induction ranges generalizing map map' with
  | nil => exact h
  | cons r ranges ih =>
      rw [rangesMap, rangesMap, List.foldl_cons, List.foldl_cons]
      apply ih
      simp only [rangeMap, h]

theorem kvmmapInto_spec (msg : String) (h : Ready m root) {r : Range} (hfits : r.Fits)
    (hvacant : ∀ vpn ∈ r.vpns, ¬ Valid (entry m.mem root vpn)) :
    (∃ m', kvmmapInto msg m root (r.vpn * pgSize) r.page (r.pages * pgSize) r.perm = .ok m' ∧
      Edit root (missing m.mem root r.vpns)
        (rangeMap (entry m.mem root) r.vpn r.pages r.page r.perm) m m') ∨
    (kvmmapInto msg m root (r.vpn * pgSize) r.page (r.pages * pgSize) r.perm
        = .error (.panic msg) ∧ m.free.length < (missing m.mem root r.vpns).card) := by
  obtain ⟨hpos, hvpn, hpage, hleaf⟩ := hfits
  have hpages : r.pages - 1 + 1 = r.pages := by omega
  have hIcc : Finset.Icc r.vpn (r.vpn + (r.pages - 1)) = r.vpns := by
    ext vpn
    rw [Range.vpns, Finset.mem_Icc, Finset.mem_Ico]
    omega
  have hvacant' : ∀ vpn, r.vpn ≤ vpn → vpn ≤ r.vpn + (r.pages - 1) →
      ¬ Valid (entry m.mem root vpn) := by
    intro vpn hlo hhi
    exact hvacant vpn (by rw [Range.vpns, Finset.mem_Ico]; omega)
  have hspec := mappages_spec (n := r.pages - 1) h (by omega) hvacant'
    (show r.page + (r.pages - 1) < 2 ^ 52 by omega) hleaf
    (show r.vpn * pgSize = r.vpn * 4096 by rfl)
    (show r.pages * pgSize = (r.pages - 1 + 1) * 4096 by rw [hpages, pgSize])
  rw [hIcc, hpages] at hspec
  rcases hspec with ⟨m', hmap, hedit, -⟩ | ⟨added, k, m', hmap, -, -, -, hcard⟩
  · refine Or.inl ⟨m', ?_, hedit⟩
    rw [kvmmapInto, hmap]
    rfl
  · refine Or.inr ⟨?_, hcard⟩
    rw [kvmmapInto, hmap]
    rfl

/-- All ranges are mapped, or the pages for their tables are not to be had. -/
theorem mapRanges_spec (msg : String) {ranges : List Range} (h : Ready m root)
    (hfits : ∀ r ∈ ranges, r.Fits)
    (hdisjoint : ranges.Pairwise fun r r' => Disjoint r.vpns r'.vpns)
    (hvacant : ∀ r ∈ ranges, ∀ vpn ∈ r.vpns, ¬ Valid (entry m.mem root vpn)) :
    (∃ m', mapRanges msg root m ranges = .ok m' ∧
      Edit root (missing m.mem root (rangesVpns ranges)) (rangesMap (entry m.mem root) ranges)
        m m') ∨
    (mapRanges msg root m ranges = .error (.panic msg) ∧
      m.free.length < (missing m.mem root (rangesVpns ranges)).card) := by
  induction ranges generalizing m with
  | nil => exact Or.inl ⟨m, rfl, Edit.refl h⟩
  | cons r ranges ih =>
      obtain ⟨hfirst, hrest⟩ := List.pairwise_cons.mp hdisjoint
      have hlater : ∀ r' ∈ ranges, r' ∈ r :: ranges := fun _ hr' => List.mem_cons_of_mem _ hr'
      rw [mapRanges, List.foldlM_cons, rangesVpns_cons]
      rcases kvmmapInto_spec msg h (hfits r (by simp)) (hvacant r (by simp)) with
        ⟨m₁, hmap, hedit⟩ | ⟨hmap, hcard⟩
      · have hvacant₁ : ∀ r' ∈ ranges, ∀ vpn ∈ r'.vpns, ¬ Valid (entry m₁.mem root vpn) := by
          intro r' hr' vpn hvpn
          have hlt : vpn < 2 ^ 26 := by
            have hbound := (hfits r' (hlater r' hr')).vpn
            rw [Range.vpns, Finset.mem_Ico] at hvpn
            omega
          have hnot : vpn ∉ r.vpns := fun hmem =>
            Finset.disjoint_left.mp (hfirst r' hr') hmem hvpn
          rw [hedit.entry_eq vpn hlt, rangeMap_of_notMem hnot]
          exact hvacant r' (hlater r' hr') vpn hvpn
        obtain ⟨hunion, hsum⟩ := hedit.toAdds.missing_card (rangesVpns ranges)
        have hcount := hedit.count
        rw [hmap, ok_bind, hsum]
        rcases ih (hedit.ready h) (fun r' hr' => hfits r' (hlater r' hr')) hrest hvacant₁ with
          ⟨m', hloop, hedit'⟩ | ⟨hloop, hcard⟩
        · refine Or.inl ⟨m', hloop, ?_⟩
          rw [hunion]
          apply (hedit.trans hedit').congr
          intro vpn hvpn
          exact rangesMap_congr (hedit.entry_eq vpn hvpn)
        · exact Or.inr ⟨hloop, by omega⟩
      · refine Or.inr ⟨?_, ?_⟩
        · rw [hmap]
          rfl
        · have hle := card_missing_le m.mem root r.vpns (rangesVpns ranges)
          omega

/-- Ranges mapped into a blank page. -/
theorem Built.ranges (msg : String) {ranges : List Range} {free : List ℕ} (hapart : Apart m ∅)
    (hfree : m.free = root :: free) (hfits : ∀ r ∈ ranges, r.Fits)
    (hdisjoint : ranges.Pairwise fun r r' => Disjoint r.vpns r'.vpns) :
    (∃ m', mapRanges msg root (Vm.take m root free fun _ => 0) ranges = .ok m' ∧
      Built root (rangesVpns ranges) (rangesMap (fun _ => 0) ranges) m m') ∨
    (mapRanges msg root (Vm.take m root free fun _ => 0) ranges = .error (.panic msg) ∧
      m.free.length < 1 + (tablesFor (rangesVpns ranges)).card) := by
  have hblank := Built.blank hapart hfree
  have hmissing := hblank.missing_eq (rangesVpns ranges)
  have hlength := hblank.count
  rw [show tablesFor ∅ = ∅ from rfl, Finset.sdiff_empty] at hmissing
  rw [show (tablesFor ∅).card = 0 from rfl] at hlength
  have hvacant : ∀ r ∈ ranges, ∀ vpn ∈ r.vpns,
      ¬ Valid (entry (Vm.take m root free fun _ => 0).mem root vpn) := by
    intro r hr vpn hvpn
    have hbound := (hfits r hr).vpn
    rw [Range.vpns, Finset.mem_Ico] at hvpn
    rw [hblank.entry_eq vpn (by omega)]
    exact not_valid_zero
  rcases mapRanges_spec msg (hblank.ready hapart) hfits hdisjoint hvacant with
    ⟨m', hmap, hedit⟩ | ⟨hmap, hcard⟩
  · have hbuilt := hblank.edit hedit
    rw [Finset.empty_union] at hbuilt
    exact Or.inl ⟨m', hmap, hbuilt.congr fun vpn hvpn =>
      rangesMap_congr (hblank.entry_eq vpn hvpn)⟩
  · rw [hmissing] at hcard
    exact Or.inr ⟨hmap, by omega⟩

end Ranges

end OperateSystem.Vm

import OperateSystem.Core.PointerTree
import OperateSystem.Vm.PageTable
import Mathlib.Data.Finset.Card
import Mathlib.Data.Finset.Union

/-!
# Page tables as trees

A page table is an unshared tree of pages, three levels deep, and maps each
virtual page to the word at the end of its path.  `Remap` says what an operation
on one tree may do to memory: add table pages and change words of the map, and
nothing else; `Graft` says besides that the new pages come from the free list.
Which words the last level holds does not matter here.
-/

namespace OperateSystem.Vm

open OperateSystem.PointerTree

/-- `PX(level, va)` of the virtual page of `va`. -/
def idx (level vpn : ℕ) : Fin 512 := ⟨vpn / 512 ^ level % 512, Nat.mod_lt _ (by decide)⟩

/-- The path to the last-level table for a virtual page. -/
def pathOf (vpn : ℕ) : List (Fin 512) := [idx 2 vpn, idx 1 vpn]

/-- The table pages below the root that a virtual page needs. -/
def pathsOf (vpn : ℕ) : Finset (List (Fin 512)) := {[idx 2 vpn], [idx 2 vpn, idx 1 vpn]}

/-- The word a table holds for a virtual page; 0 where there is no table. -/
def entry (mem : ℕ → Page) (root vpn : ℕ) : Word :=
  match node next mem root (pathOf vpn) with
  | some table => mem table (idx 0 vpn)
  | none => 0

/-- The pages of a page table. -/
abbrev tables (mem : ℕ → Page) (root : ℕ) : Set ℕ := Nodes next 2 mem root

/-- A tree of table pages: no page is shared, and the upper levels hold pointers. -/
structure Tree (mem : ℕ → Page) (root : ℕ) : Prop where
  unshared : Unshared next 2 mem root
  inner : ∀ path page i, path.length < 2 → node next mem root path = some page →
    Valid (mem page i) → ¬ Leaf (mem page i)

/-- Pages move between a holding and the free list, and nothing else is
touched. -/
structure Moves (held held' : Set ℕ) (m m' : Machine) : Prop where
  nodup : m'.free.Nodup
  apart : ∀ page ∈ m'.free, page ∉ held'
  conserve : ∀ page, (page ∈ held' ∨ page ∈ m'.free) ↔ (page ∈ held ∨ page ∈ m.free)
  frame : ∀ page, page ∉ held → page ∉ m.free → m'.mem page = m.mem page

/-- The free list is a list of pages that the holding does not contain. -/
structure Apart (m : Machine) (held : Set ℕ) : Prop where
  nodup : m.free.Nodup
  apart : ∀ page ∈ m.free, page ∉ held
  bounded : ∀ page ∈ m.free, page < 2 ^ 52

/-- The pages of a holding get new contents. -/
theorem Moves.touch {m m' : Machine} {held : Set ℕ} (h : Apart m held) (hfree : m'.free = m.free)
    (hframe : ∀ page, page ∉ held → m'.mem page = m.mem page) : Moves held held m m' := by
  refine ⟨?_, ?_, ?_, fun page hpage _ => hframe page hpage⟩
  · rw [hfree]
    exact h.nodup
  · rw [hfree]
    exact h.apart
  · intro page
    rw [hfree]

theorem Moves.refl {m : Machine} {held : Set ℕ} (h : Apart m held) : Moves held held m m :=
  Moves.touch h rfl fun _ _ => rfl

/-- A page that is neither held nor free stays so. -/
theorem Moves.absent {m m' : Machine} {held held' : Set ℕ} (h : Moves held held' m m') {page : ℕ}
    (hheld : page ∉ held) (hfree : page ∉ m.free) : page ∉ held' ∧ page ∉ m'.free := by
  rw [← not_or, h.conserve]
  exact not_or.mpr ⟨hheld, hfree⟩

theorem Moves.trans {m m' m'' : Machine} {held held' held'' : Set ℕ}
    (h : Moves held held' m m') (h' : Moves held' held'' m' m'') : Moves held held'' m m'' := by
  refine ⟨h'.nodup, h'.apart, fun page => (h'.conserve page).trans (h.conserve page), ?_⟩
  intro page hheld hfree
  obtain ⟨hheld', hfree'⟩ := h.absent hheld hfree
  rw [h'.frame page hheld' hfree', h.frame page hheld hfree]

section Lookup

theorem px_vpn {level vpn ofs : ℕ} (hofs : ofs < 4096) :
    px level (4096 * vpn + ofs) = idx level vpn :=
  px_page level vpn ofs hofs

theorem px_start (level vpn : ℕ) : px level (4096 * vpn) = idx level vpn :=
  px_vpn (show 0 < 4096 by decide)

/-- A virtual page is determined by its indices. -/
theorem vpn_ext {vpn vpn' : ℕ} (hvpn : vpn < 2 ^ 27) (hvpn' : vpn' < 2 ^ 27)
    (hpath : pathOf vpn = pathOf vpn') (hidx : idx 0 vpn = idx 0 vpn') : vpn = vpn' := by
  simp only [pathOf, idx, List.cons.injEq, Fin.mk.injEq, and_true] at hpath hidx
  omega

theorem walkLevel_false (m : Machine) (table : ℕ) (i : Fin 512) :
    walkLevel m table i false = (next (m.mem table i), m) := by
  rw [walkLevel, next]
  split <;> simp

/-- Looking a page up follows its path. -/
theorem walk_false (m : Machine) (root : ℕ) {vpn ofs : ℕ} (hvpn : vpn < 2 ^ 26)
    (hofs : ofs < 4096) :
    walk m root (4096 * vpn + ofs) false
      = .ok ((node next m.mem root (pathOf vpn)).map fun table => (table, idx 0 vpn), m) := by
  have hlt : ¬ maxVa ≤ 4096 * vpn + ofs := by
    rw [maxVa]
    omega
  rw [walk, if_neg hlt, walkLevel_false, px_vpn hofs, px_vpn hofs, px_vpn hofs, pathOf, node]
  cases next (m.mem root (idx 2 vpn)) with
  | none => rfl
  | some table =>
      simp only [walkLevel_false, node, Option.bind_some]
      cases next (m.mem table (idx 1 vpn)) with
      | none => rfl
      | some table => rfl

theorem find_eq (m : Machine) (root : ℕ) {vpn ofs : ℕ} (hvpn : vpn < 2 ^ 26) (hofs : ofs < 4096) :
    find m root (4096 * vpn + ofs)
      = .ok ((node next m.mem root (pathOf vpn)).map fun table => (table, idx 0 vpn)) := by
  rw [find, walk_false m root hvpn hofs]
  rfl

theorem entry_of_node {mem : ℕ → Page} {root vpn table : ℕ}
    (h : node next mem root (pathOf vpn) = some table) :
    entry mem root vpn = mem table (idx 0 vpn) := by
  rw [entry, h]

theorem entry_of_none {mem : ℕ → Page} {root vpn : ℕ}
    (h : node next mem root (pathOf vpn) = none) : entry mem root vpn = 0 := by
  rw [entry, h]

/-- A mapped page has its tables. -/
theorem node_of_valid {mem : ℕ → Page} {root vpn : ℕ} (h : Valid (entry mem root vpn)) :
    ∃ table, node next mem root (pathOf vpn) = some table := by
  cases hnode : node next mem root (pathOf vpn) with
  | none =>
      rw [entry_of_none hnode] at h
      exact absurd h not_valid_zero
  | some table => exact ⟨table, rfl⟩
/-- A table does not depend on the pages outside it. -/
theorem entry_frame {mem mem' : ℕ → Page} {root : ℕ}
    (h : ∀ page ∈ tables mem root, mem' page = mem page) (vpn : ℕ) :
    entry mem' root vpn = entry mem root vpn := by
  have hnode : node next mem' root (pathOf vpn) = node next mem root (pathOf vpn) :=
    node_frame h (by simp [pathOf])
  rw [entry, hnode, entry]
  cases hpath : node next mem root (pathOf vpn) with
  | none => rfl
  | some table => simp only [h table ⟨pathOf vpn, by simp [pathOf], hpath⟩]

theorem tables_frame {mem mem' : ℕ → Page} {root : ℕ}
    (h : ∀ page ∈ tables mem root, mem' page = mem page) : tables mem' root = tables mem root :=
  nodes_congr fun _ hlength => node_frame h hlength

theorem Tree.frame {mem mem' : ℕ → Page} {root : ℕ} (h : Tree mem root)
    (hframe : ∀ page ∈ tables mem root, mem' page = mem page) : Tree mem' root := by
  have hnode : ∀ path : List (Fin 512), path.length ≤ 2 →
      node next mem' root path = node next mem root path :=
    fun _ hlength => node_frame hframe hlength
  refine ⟨h.unshared.congr hnode, ?_⟩
  intro path page i hlength hpath
  rw [hnode path (by omega)] at hpath
  rw [hframe page ⟨path, by omega, hpath⟩]
  exact h.inner path page i hlength hpath

end Lookup

/-- The tables at the paths `added` are new, and all others stay. -/
structure Adds (root : ℕ) (added : Finset (List (Fin 512))) (mem mem' : ℕ → Page) : Prop where
  old : ∀ path, path.length ≤ 2 → path ∉ added →
    node next mem' root path = node next mem root path
  new : ∀ path ∈ added, path.length ≤ 2 ∧ node next mem root path = none ∧
    (node next mem' root path).isSome

section Adds

variable {root : ℕ} {mem mem' mem'' : ℕ → Page} {added added' : Finset (List (Fin 512))}

theorem Adds.of_node_eq (h : ∀ path : List (Fin 512), path.length ≤ 2 →
    node next mem' root path = node next mem root path) : Adds root ∅ mem mem' :=
  ⟨fun path hlength _ => h path hlength, by simp⟩

theorem Adds.node_some (h : Adds root added mem mem') {path : List (Fin 512)}
    (hlength : path.length ≤ 2) {page : ℕ} (hpath : node next mem root path = some page) :
    node next mem' root path = some page := by
  rw [h.old path hlength, hpath]
  intro hadded
  rw [(h.new path hadded).2.1] at hpath
  cases hpath

theorem Adds.tables_subset (h : Adds root added mem mem') :
    tables mem root ⊆ tables mem' root := by
  rintro page ⟨path, hlength, hpath⟩
  exact ⟨path, hlength, h.node_some hlength hpath⟩

/-- Paths added one after the other are different. -/
theorem Adds.disjoint (h : Adds root added mem mem') (h' : Adds root added' mem' mem'') :
    Disjoint added added' := by
  rw [Finset.disjoint_left]
  intro path hadded hadded'
  have hsome := (h.new path hadded).2.2
  rw [(h'.new path hadded').2.1] at hsome
  cases hsome

theorem Adds.trans (h : Adds root added mem mem') (h' : Adds root added' mem' mem'') :
    Adds root (added ∪ added') mem mem'' := by
  constructor
  · intro path hlength hpath
    rw [Finset.mem_union, not_or] at hpath
    rw [h'.old path hlength hpath.2, h.old path hlength hpath.1]
  · intro path hpath
    rcases Finset.mem_union.mp hpath with hadded | hadded'
    · obtain ⟨hlength, hnone, hsome⟩ := h.new path hadded
      refine ⟨hlength, hnone, ?_⟩
      obtain ⟨page, hpage⟩ := Option.isSome_iff_exists.mp hsome
      rw [h'.node_some hlength hpage]
      rfl
    · obtain ⟨hlength, hnone, hsome⟩ := h'.new path hadded'
      refine ⟨hlength, ?_, hsome⟩
      cases hnode : node next mem root path with
      | none => rfl
      | some page =>
          rw [h.node_some hlength hnode] at hnone
          cases hnone

end Adds

/-- What happens to the tree `root` in memory: its map becomes `map`, and the
tables at the paths `added`, for pages below `MAXVA`, are new. -/
structure Remap (root : ℕ) (added : Finset (List (Fin 512))) (map : ℕ → Word)
    (mem mem' : ℕ → Page) : Prop extends Adds root added mem mem' where
  tree : Tree mem' root
  low : ∀ path ∈ added, ∃ vpn, vpn < 2 ^ 26 ∧ path ∈ pathsOf vpn
  entry_eq : ∀ vpn, vpn < 2 ^ 27 → entry mem' root vpn = map vpn

/-- The new tables are pages of the free list. -/
structure Graft (root : ℕ) (added : Finset (List (Fin 512))) (map : ℕ → Word) (m m' : Machine) :
    Prop extends Remap root added map m.mem m'.mem where
  moves : Moves (tables m.mem root) (tables m'.mem root) m m'
  count : m.free.length = m'.free.length + added.card

/-- A tree and a free list apart from it. -/
structure Planted (m : Machine) (root : ℕ) : Prop extends Apart m (tables m.mem root) where
  tree : Tree m.mem root

section Grafts

variable {root : ℕ} {m m' m'' : Machine} {mem mem' mem'' : ℕ → Page}
  {added added' : Finset (List (Fin 512))} {map map' : ℕ → Word}

/-- Nothing happens away from the tables. -/
theorem Remap.of_frame (h : Tree mem root)
    (hframe : ∀ page ∈ tables mem root, mem' page = mem page) :
    Remap root ∅ (entry mem root) mem mem' where
  toAdds := Adds.of_node_eq fun _ hlength => node_frame hframe hlength
  tree := h.frame hframe
  low := by simp
  entry_eq := fun vpn _ => entry_frame hframe vpn

theorem Remap.trans (h : Remap root added map mem mem') (h' : Remap root added' map' mem' mem'') :
    Remap root (added ∪ added') map' mem mem'' where
  toAdds := h.toAdds.trans h'.toAdds
  tree := h'.tree
  low := by
    intro path hpath
    rcases Finset.mem_union.mp hpath with hadded | hadded'
    · exact h.low path hadded
    · exact h'.low path hadded'
  entry_eq := h'.entry_eq

/-- The map may be described in any way that gives the same words. -/
theorem Remap.congr (h : Remap root added map mem mem')
    (hmap : ∀ vpn, vpn < 2 ^ 27 → map vpn = map' vpn) : Remap root added map' mem mem' :=
  { h with entry_eq := fun vpn hvpn => (h.entry_eq vpn hvpn).trans (hmap vpn hvpn) }

theorem Graft.refl (h : Planted m root) : Graft root ∅ (entry m.mem root) m m where
  toRemap := Remap.of_frame h.tree fun _ _ => rfl
  moves := Moves.refl h.toApart
  count := by simp

/-- The pages that are free afterwards were free before. -/
theorem Graft.free_subset (h : Graft root added map m m') {page : ℕ} (hpage : page ∈ m'.free) :
    page ∈ m.free := by
  rcases (h.moves.conserve page).mp (Or.inr hpage) with hheld | hfree
  · exact absurd (h.tables_subset hheld) (h.moves.apart page hpage)
  · exact hfree

theorem Graft.planted (h : Graft root added map m m') (hplanted : Planted m root) :
    Planted m' root where
  nodup := h.moves.nodup
  apart := h.moves.apart
  bounded := fun page hpage => hplanted.bounded page (h.free_subset hpage)
  tree := h.tree

theorem Graft.trans (h : Graft root added map m m') (h' : Graft root added' map' m' m'') :
    Graft root (added ∪ added') map' m m'' where
  toRemap := h.toRemap.trans h'.toRemap
  moves := h.moves.trans h'.moves
  count := by
    rw [h.count, h'.count, Finset.card_union_of_disjoint (h.toAdds.disjoint h'.toAdds)]
    omega

theorem Graft.congr (h : Graft root added map m m')
    (hmap : ∀ vpn, vpn < 2 ^ 27 → map vpn = map' vpn) : Graft root added map' m m' :=
  { h with toRemap := h.toRemap.congr hmap }

end Grafts

section Words

variable {root : ℕ} {m : Machine}

theorem store_of_ne (m : Machine) {page other : ℕ} (i : Fin 512) (word : Word)
    (hne : other ≠ page) : (m.store page i word).mem other = m.mem other :=
  Function.update_of_ne hne _ _

theorem store_same (m : Machine) (page : ℕ) (i j : Fin 512) (word : Word) :
    (m.store page i word).mem page j = if j = i then word else m.mem page j := by
  simp only [Machine.store, Function.update_self, Function.update_apply]

theorem fill_of_ne (m : Machine) {page other : ℕ} (content : Page) (hne : other ≠ page) :
    (m.fill page content).mem other = m.mem other :=
  Function.update_of_ne hne _ _

theorem fill_same (m : Machine) (page : ℕ) (content : Page) :
    (m.fill page content).mem page = content :=
  Function.update_self _ _ _

/-- A page of the last level is none of the upper ones. -/
theorem Tree.ne_last {mem : ℕ → Page} (h : Tree mem root) {vpn table : ℕ}
    (htable : node next mem root (pathOf vpn) = some table) {path : List (Fin 512)} {page : ℕ}
    (hlength : path.length < 2) (hpath : node next mem root path = some page) : page ≠ table := by
  rintro rfl
  have heq := h.unshared path (pathOf vpn) page (by omega) (by simp [pathOf]) hpath htable
  rw [heq] at hlength
  simp [pathOf] at hlength

/-- Writing a word of the map. -/
theorem Remap.store (h : Tree m.mem root) {vpn table : ℕ} (hvpn : vpn < 2 ^ 27)
    (htable : node next m.mem root (pathOf vpn) = some table) (word : Word) :
    Remap root ∅ (Function.update (entry m.mem root) vpn word) m.mem
      (m.store table (idx 0 vpn) word).mem := by
  -- The written page is at the last level, so no path goes through it.
  have hnode : ∀ path : List (Fin 512), path.length ≤ 2 →
      node next (m.store table (idx 0 vpn) word).mem root path = node next m.mem root path := by
    intro path hlength
    apply node_upper _ hlength
    intro path' page hlength' hpath'
    exact store_of_ne m _ _ (h.ne_last htable hlength' hpath')
  refine ⟨Adds.of_node_eq hnode, ⟨h.unshared.congr hnode, ?_⟩, by simp, ?_⟩
  · intro path page i hlength hpath
    rw [hnode path (by omega)] at hpath
    rw [store_of_ne m _ _ (h.ne_last htable hlength hpath)]
    exact h.inner path page i hlength hpath
  · intro vpn' hvpn'
    rw [entry, hnode _ (by simp [pathOf]), Function.update_apply]
    by_cases heq : vpn' = vpn
    · subst heq
      rw [htable, if_pos rfl]
      simp only [store_same, if_true]
    · rw [if_neg heq, entry]
      cases hpath : node next m.mem root (pathOf vpn') with
      | none => rfl
      | some table' =>
          by_cases hsame : table' = table
          · subst hsame
            have hpaths := h.unshared _ _ table' (by simp [pathOf]) (by simp [pathOf]) hpath htable
            have hidx : idx 0 vpn' ≠ idx 0 vpn := by
              intro hidx
              exact heq (vpn_ext hvpn' hvpn hpaths hidx)
            simp only [store_same, if_neg hidx]
          · simp only [store_of_ne m _ _ hsame]

theorem Graft.store (h : Planted m root) {vpn table : ℕ} (hvpn : vpn < 2 ^ 27)
    (htable : node next m.mem root (pathOf vpn) = some table) (word : Word) :
    Graft root ∅ (Function.update (entry m.mem root) vpn word) m
      (m.store table (idx 0 vpn) word) := by
  have hmem : table ∈ tables m.mem root := ⟨pathOf vpn, by simp [pathOf], htable⟩
  have hremap := Remap.store h.tree hvpn htable word
  have htables : tables (m.store table (idx 0 vpn) word).mem root = tables m.mem root :=
    nodes_congr fun path hlength => hremap.old path hlength (by simp)
  refine ⟨hremap, ?_, by simp [Machine.store]⟩
  rw [htables]
  refine ⟨h.nodup, h.apart, fun _ => Iff.rfl, ?_⟩
  intro page hpage _
  apply store_of_ne
  rintro rfl
  exact hpage hmem

/-- The memory after a table page has been put under word `i` of `table`. -/
def hang (m : Machine) (table : ℕ) (i : Fin 512) (page : ℕ) (free : List ℕ) : Machine :=
  ((Machine.fill ⟨m.mem, free⟩ page fun _ => 0x0505050505050505).zero page).store table i
    (pa2pte page ||| pteV)

theorem hang_of_ne (m : Machine) {table page other : ℕ} (i : Fin 512) (free : List ℕ)
    (hpage : other ≠ page) (htable : other ≠ table) :
    (hang m table i page free).mem other = m.mem other := by
  rw [hang, store_of_ne _ _ _ htable, Machine.zero, fill_of_ne _ _ hpage, fill_of_ne _ _ hpage]

theorem hang_table (m : Machine) {table page : ℕ} (i j : Fin 512) (free : List ℕ)
    (hne : table ≠ page) :
    (hang m table i page free).mem table j
      = if j = i then pa2pte page ||| pteV else m.mem table j := by
  rw [hang, store_same, Machine.zero, fill_of_ne _ _ hne, fill_of_ne _ _ hne]

theorem hang_page (m : Machine) {table page : ℕ} (i j : Fin 512) (free : List ℕ)
    (hne : table ≠ page) : (hang m table i page free).mem page j = 0 := by
  rw [hang, store_of_ne _ _ _ hne.symm, Machine.zero, fill_same]

theorem walkLevel_true (m : Machine) (table : ℕ) (i : Fin 512) :
    walkLevel m table i true =
      match next (m.mem table i), m.free with
      | some page, _ => (some page, m)
      | none, [] => (none, m)
      | none, page :: free => (some page, hang m table i page free) := by
  rw [walkLevel, next, Machine.kalloc]
  by_cases hvalid : Valid (m.mem table i)
  · simp [hvalid]
  · simp only [hvalid, if_false, if_true]
    cases m.free with
    | nil => rfl
    | cons page free => rfl

theorem hangs_hang {table page : ℕ} (i : Fin 512) (free : List ℕ)
    (hvacant : next (m.mem table i) = none) (hne : table ≠ page) (hpage : page < 2 ^ 52) :
    Hangs next m.mem (hang m table i page free).mem table i page where
  vacant := hvacant
  link := by rw [hang_table m i i free hne, if_pos rfl, next_table hpage]
  blank := fun j => by rw [hang_page m i j free hne, next_zero]
  other := by
    intro other j hother hj
    by_cases htable : other = table
    · subst htable
      rw [hang_table m i j free hne, if_neg (hj rfl)]
    · rw [hang_of_ne m i free hother htable]

/-- Adding a table page. -/
theorem Graft.hang (h : Planted m root) (path : List (Fin 512)) {table page : ℕ} {i : Fin 512}
    {free : List ℕ} (hlength : path.length < 2) (htable : node next m.mem root path = some table)
    (hvacant : next (m.mem table i) = none)
    (hlow : ∃ vpn, vpn < 2 ^ 26 ∧ path ++ [i] ∈ pathsOf vpn) (hfree : m.free = page :: free) :
    Graft root {path ++ [i]} (entry m.mem root) m (Vm.hang m table i page free) := by
  have hmem : table ∈ tables m.mem root := ⟨path, by omega, htable⟩
  have hpage : page ∉ tables m.mem root := h.apart page (by simp [hfree])
  have hne : table ≠ page := fun heq => hpage (heq ▸ hmem)
  have hbound : page < 2 ^ 52 := h.bounded page (by simp [hfree])
  have hhangs : Hangs next m.mem (Vm.hang m table i page free).mem table i page :=
    hangs_hang i free hvacant hne hbound
  have hnode : ∀ path' : List (Fin 512), path'.length ≤ 2 →
      node next (Vm.hang m table i page free).mem root path'
        = if path' = path ++ [i] then some page else node next m.mem root path' :=
    fun _ hlength' => hhangs.node_eq h.tree.unshared htable hlength hpage hlength'
  have htables : tables (Vm.hang m table i page free).mem root
      = insert page (tables m.mem root) :=
    hhangs.nodes_eq h.tree.unshared htable hlength hpage
  have hnone : node next m.mem root (path ++ [i]) = none := by
    rw [node_concat, htable, Option.bind_some, hvacant]
  have hnodup := h.nodup
  rw [hfree, List.nodup_cons] at hnodup
  refine ⟨⟨⟨?_, ?_⟩, ⟨hhangs.unshared h.tree.unshared htable hlength hpage, ?_⟩, ?_, ?_⟩, ?_, ?_⟩
  · intro path' hlength' hpath'
    rw [hnode path' hlength', if_neg (by simpa using hpath')]
  · intro path' hpath'
    rw [Finset.mem_singleton] at hpath'
    subst hpath'
    have hlen : (path ++ [i]).length ≤ 2 := by simpa using Nat.succ_le_of_lt hlength
    refine ⟨hlen, hnone, ?_⟩
    rw [hnode _ hlen, if_pos rfl]
    rfl
  · intro path' page' j hlength' hpath'
    rw [hnode path' (by omega)] at hpath'
    by_cases hfresh : page' = page
    · subst hfresh
      rw [hang_page m i j free hne]
      exact fun hvalid => absurd hvalid not_valid_zero
    · have hpath : node next m.mem root path' = some page' := by
        split at hpath'
        · exact absurd (Option.some.inj hpath').symm hfresh
        · exact hpath'
      by_cases hsame : page' = table
      · subst hsame
        rw [hang_table m i j free hne]
        split
        · exact fun _ => not_leaf_table hbound
        · exact h.tree.inner path' page' j hlength' hpath
      · rw [hang_of_ne m i free hfresh hsame]
        exact h.tree.inner path' page' j hlength' hpath
  · intro path' hpath'
    rw [Finset.mem_singleton.mp hpath']
    exact hlow
  · intro vpn hvpn
    have hlen : (pathOf vpn).length ≤ 2 := by simp [pathOf]
    by_cases heq : pathOf vpn = path ++ [i]
    · rw [entry_of_node (by rw [hnode _ hlen, if_pos heq]), hang_page m i _ free hne,
        entry_of_none (by rw [heq, hnone])]
    · cases hpath : node next m.mem root (pathOf vpn) with
      | none =>
          rw [entry_of_none hpath, entry_of_none (by rw [hnode _ hlen, if_neg heq, hpath])]
      | some table' =>
          rw [entry_of_node hpath, entry_of_node (by rw [hnode _ hlen, if_neg heq, hpath])]
          have hfresh : table' ≠ page := by
            rintro rfl
            exact hpage ⟨_, hlen, hpath⟩
          rw [hang_of_ne m i free hfresh (h.tree.ne_last hpath hlength htable).symm]
  · rw [htables]
    refine ⟨hnodup.2, ?_, ?_, ?_⟩
    · intro other hother
      rw [Set.mem_insert_iff, not_or]
      refine ⟨?_, h.apart other (by simp [hfree]; exact Or.inr hother)⟩
      rintro rfl
      exact hnodup.1 hother
    · intro other
      simp only [Set.mem_insert_iff, hfree, List.mem_cons]
      change (other = page ∨ other ∈ tables m.mem root) ∨ other ∈ free ↔ _
      tauto
    · intro other hheld hother
      apply hang_of_ne
      · rintro rfl
        exact hother (by simp [hfree])
      · rintro rfl
        exact hheld hmem
  · rw [hfree, Finset.card_singleton]
    rfl

end Words

end OperateSystem.Vm

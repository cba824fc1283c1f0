import OperateSystem.Vm.Tree

/-!
# Page tables as finite maps

A well-formed page table is a tree whose last level holds leaves.  `Edit` says what
an operation on one table may do: add table pages taken from the free list and
change words of the map, and nothing else.  Its `added` paths account for every
page taken.
-/

namespace OperateSystem.Vm

open OperateSystem.PointerTree

/-- A well-formed page table: no page is shared, the upper levels hold pointers
and the last one leaves.  Addresses are below `MAXVA`, which uses half of the root. -/
structure Table (mem : ℕ → Page) (root : ℕ) : Prop where
  unshared : Unshared next 2 mem root
  inner : ∀ path page i, path.length < 2 → node next mem root path = some page →
    Valid (mem page i) → ¬ Leaf (mem page i)
  leaf : ∀ path page i, path.length = 2 → node next mem root path = some page →
    Valid (mem page i) → Leaf (mem page i)
  low : ∀ i, Valid (mem root i) → i.val < 256
  bound : root < 2 ^ 52
section Lookup

theorem Table.tree {mem : ℕ → Page} {root : ℕ} (h : Table mem root) : Tree mem root :=
  ⟨h.unshared, h.inner⟩

theorem Table.leaf_entry {mem : ℕ → Page} {root vpn : ℕ} (h : Table mem root)
    (hvalid : Valid (entry mem root vpn)) : Leaf (entry mem root vpn) := by
  obtain ⟨table, hnode⟩ := node_of_valid hvalid
  rw [entry_of_node hnode] at hvalid ⊢
  exact h.leaf (pathOf vpn) table (idx 0 vpn) rfl hnode hvalid

theorem Table.page_lt {mem : ℕ → Page} {root page : ℕ} (h : Table mem root)
    (hpage : page ∈ tables mem root) : page < 2 ^ 52 := by
  obtain ⟨path, -, hpath⟩ := hpage
  rcases List.eq_nil_or_concat' path with rfl | ⟨before, i, rfl⟩
  · cases hpath
    exact h.bound
  · rw [node_concat] at hpath
    obtain ⟨table, -, hnext⟩ := Option.bind_eq_some_iff.mp hpath
    rw [next] at hnext
    split at hnext
    · cases hnext
      exact pte2pa_lt _
    · cases hnext
theorem Table.frame {mem mem' : ℕ → Page} {root : ℕ} (h : Table mem root)
    (hframe : ∀ page ∈ tables mem root, mem' page = mem page) : Table mem' root := by
  have hnode : ∀ path : List (Fin 512), path.length ≤ 2 →
      node next mem' root path = node next mem root path :=
    fun _ hlength => node_frame hframe hlength
  refine ⟨h.unshared.congr hnode, ?_, ?_, ?_, h.bound⟩
  · intro path page i hlength hpath
    rw [hnode path (by omega)] at hpath
    rw [hframe page ⟨path, by omega, hpath⟩]
    exact h.inner path page i hlength hpath
  · intro path page i hlength hpath
    rw [hnode path (by omega)] at hpath
    rw [hframe page ⟨path, by omega, hpath⟩]
    exact h.leaf path page i hlength hpath
  · rw [hframe root (root_mem_nodes 2)]
    exact h.low

end Lookup
/-- What an operation on the table `root` does: its map becomes `map`, and the
tables at the paths `added` are new. -/
structure Edit (root : ℕ) (added : Finset (List (Fin 512))) (map : ℕ → Word) (m m' : Machine) :
    Prop extends Adds root added m.mem m'.mem where
  table : Table m'.mem root
  moves : Moves (tables m.mem root) (tables m'.mem root) m m'
  count : m.free.length = m'.free.length + added.card
  entry_eq : ∀ vpn, vpn < 2 ^ 26 → entry m'.mem root vpn = map vpn

/-- A table and a free list apart from it. -/
structure Ready (m : Machine) (root : ℕ) : Prop extends Apart m (tables m.mem root) where
  table : Table m.mem root

section Edits

variable {root : ℕ} {m m' m'' : Machine} {added added' : Finset (List (Fin 512))}
  {map map' : ℕ → Word}

theorem Edit.refl (h : Ready m root) : Edit root ∅ (entry m.mem root) m m where
  toAdds := Adds.of_node_eq fun _ _ => rfl
  table := h.table
  moves := Moves.refl h.toApart
  count := by simp
  entry_eq := fun _ _ => rfl

/-- The pages that are free afterwards were free before. -/
theorem Edit.free_subset (h : Edit root added map m m') {page : ℕ} (hpage : page ∈ m'.free) :
    page ∈ m.free := by
  rcases (h.moves.conserve page).mp (Or.inr hpage) with hheld | hfree
  · exact absurd (h.tables_subset hheld) (h.moves.apart page hpage)
  · exact hfree

theorem Edit.ready (h : Edit root added map m m') (hready : Ready m root) : Ready m' root where
  nodup := h.moves.nodup
  apart := h.moves.apart
  bounded := fun page hpage => hready.bounded page (h.free_subset hpage)
  table := h.table

theorem Edit.trans (h : Edit root added map m m') (h' : Edit root added' map' m' m'') :
    Edit root (added ∪ added') map' m m'' where
  toAdds := h.toAdds.trans h'.toAdds
  table := h'.table
  moves := h.moves.trans h'.moves
  count := by
    rw [h.count, h'.count, Finset.card_union_of_disjoint (h.toAdds.disjoint h'.toAdds)]
    omega
  entry_eq := h'.entry_eq

/-- The map may be described in any way that gives the same words. -/
theorem Edit.congr (h : Edit root added map m m')
    (hmap : ∀ vpn, vpn < 2 ^ 26 → map vpn = map' vpn) :
    Edit root added map' m m' :=
  { h with entry_eq := fun vpn hvpn => (h.entry_eq vpn hvpn).trans (hmap vpn hvpn) }

end Edits

section Leaves

variable {root : ℕ} {m m' : Machine} {added : Finset (List (Fin 512))} {map : ℕ → Word}

theorem Ready.planted (h : Ready m root) : Planted m root := ⟨h.toApart, h.table.tree⟩

/-- Every word of the last level belongs to a virtual page. -/
theorem exists_vpn (i j k : Fin 512) :
    ∃ vpn, vpn < 2 ^ 18 * (i.val + 1) ∧ pathOf vpn = [i, j] ∧ idx 0 vpn = k := by
  refine ⟨i.val * 2 ^ 18 + j.val * 2 ^ 9 + k.val, by omega, ?_, ?_⟩
  · simp only [pathOf, idx, List.cons.injEq, Fin.ext_iff, and_true]
    omega
  · simp only [idx, Fin.ext_iff]
    omega

/-- A graft that maps leaves only turns a table into a table. -/
theorem Graft.edit (h : Graft root added map m m') (htable : Table m.mem root)
    (hleaf : ∀ vpn, vpn < 2 ^ 27 → Valid (map vpn) → Leaf (map vpn)) :
    Edit root added map m m' := by
  refine ⟨h.toAdds, ⟨h.tree.unshared, h.tree.inner, ?_, ?_, htable.bound⟩, h.moves, h.count,
    fun vpn hvpn => h.entry_eq vpn (by omega)⟩
  · intro path table k hlength hpath
    obtain ⟨i, j, rfl⟩ := List.length_eq_two.mp hlength
    obtain ⟨vpn, hvpn, hij, rfl⟩ := exists_vpn i j k
    rw [← hij] at hpath
    rw [← entry_of_node hpath, h.entry_eq vpn (by omega)]
    exact hleaf vpn (by omega)
  · intro i hvalid
    have hnode : node next m'.mem root [i] = some (pte2pa (m'.mem root i)) := by
      simp [node, next_of_valid hvalid]
    by_cases hadded : [i] ∈ added
    · obtain ⟨vpn, hvpn, hpath⟩ := h.low [i] hadded
      simp only [pathsOf, Finset.mem_insert, Finset.mem_singleton, List.cons.injEq, and_true,
        reduceCtorEq, and_false, or_false] at hpath
      rw [hpath, idx]
      simp only
      omega
    · rw [h.old [i] (by simp) hadded, node] at hnode
      obtain ⟨table, hnext, -⟩ := Option.bind_eq_some_iff.mp hnode
      apply htable.low i
      by_contra hinvalid
      rw [next_eq_none.mpr hinvalid] at hnext
      cases hnext

/-- Writing a word of the map. -/
theorem Edit.store (h : Ready m root) {vpn table : ℕ} (hvpn : vpn < 2 ^ 26)
    (htable : node next m.mem root (pathOf vpn) = some table) (word : Word)
    (hword : Valid word → Leaf word) :
    Edit root ∅ (Function.update (entry m.mem root) vpn word) m
      (m.store table (idx 0 vpn) word) := by
  apply (Graft.store h.planted (by omega) htable word).edit h.table
  intro vpn' _
  rw [Function.update_apply]
  split
  · exact hword
  · exact h.table.leaf_entry

end Leaves

end OperateSystem.Vm

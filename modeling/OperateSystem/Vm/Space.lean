import OperateSystem.Vm.Mapping

/-!
# User memory

A page table together with the pages it owns: the targets of its leaves at the
virtual pages `S`.  `Change` is the counterpart of `Edit` for such a space: the
pages it owns and its tables move to and from the free list, and nothing else
is touched.
-/

namespace OperateSystem.Vm

open OperateSystem.PointerTree

/-- The pages mapped at `S`. -/
def targets (mem : ℕ → Page) (root : ℕ) (S : Set ℕ) : Set ℕ :=
  { page | ∃ vpn ∈ S, pte2pa (entry mem root vpn) = page }

/-- The tables and the pages mapped at `S`. -/
def held (mem : ℕ → Page) (root : ℕ) (S : Set ℕ) : Set ℕ :=
  tables mem root ∪ targets mem root S

/-- A page table that owns the pages mapped at `S`: each once, and none of them is
a table. -/
structure Space (mem : ℕ → Page) (root : ℕ) (S : Set ℕ) : Prop where
  table : Table mem root
  small : ∀ vpn ∈ S, vpn < 2 ^ 26
  mapped : ∀ vpn ∈ S, Valid (entry mem root vpn)
  apart : ∀ vpn ∈ S, pte2pa (entry mem root vpn) ∉ tables mem root
  inj : ∀ vpn ∈ S, ∀ vpn' ∈ S,
    pte2pa (entry mem root vpn) = pte2pa (entry mem root vpn') → vpn = vpn'

/-- What an operation on a space does: its map becomes `map`, it owns the pages at
`S'` instead of `S`, and the tables at `added` are new. -/
structure Change (root : ℕ) (S S' : Set ℕ) (added : Finset (List (Fin 512))) (map : ℕ → Word)
    (m m' : Machine) : Prop extends Adds root added m.mem m'.mem where
  space : Space m'.mem root S'
  moves : Moves (held m.mem root S) (held m'.mem root S') m m'
  entry_eq : ∀ vpn, vpn < 2 ^ 26 → entry m'.mem root vpn = map vpn

section Changes

variable {root : ℕ} {m m' m'' : Machine} {S S' S'' : Set ℕ}
  {added added' : Finset (List (Fin 512))} {map map' : ℕ → Word}

theorem mem_held {mem : ℕ → Page} {page : ℕ} :
    page ∈ held mem root S ↔
      page ∈ tables mem root ∨ ∃ vpn ∈ S, pte2pa (entry mem root vpn) = page := Iff.rfl

theorem held_empty (mem : ℕ → Page) (root : ℕ) : held mem root ∅ = tables mem root := by
  ext page
  simp [mem_held]

theorem Space.of_table {mem : ℕ → Page} {root : ℕ} (h : Table mem root) : Space mem root ∅ :=
  ⟨h, by simp, by simp, by simp, by simp⟩

/-- A space does not depend on the pages outside it. -/
theorem Space.frame {mem mem' : ℕ → Page} (h : Space mem root S)
    (hframe : ∀ page ∈ tables mem root, mem' page = mem page) : Space mem' root S := by
  have hentry := entry_frame hframe
  have htables := tables_frame hframe
  refine ⟨h.table.frame hframe, h.small, ?_, ?_, ?_⟩
  · intro vpn hvpn
    rw [hentry]
    exact h.mapped vpn hvpn
  · intro vpn hvpn
    rw [hentry, htables]
    exact h.apart vpn hvpn
  · intro vpn hvpn vpn' hvpn'
    rw [hentry, hentry]
    exact h.inj vpn hvpn vpn' hvpn'

theorem held_frame {mem mem' : ℕ → Page}
    (hframe : ∀ page ∈ tables mem root, mem' page = mem page) :
    held mem' root S = held mem root S := by
  have hentry := entry_frame hframe
  have htables := tables_frame hframe
  ext page
  rw [mem_held, mem_held, htables]
  simp only [hentry]

theorem mem_held_insert {mem : ℕ → Page} {vpn page : ℕ} :
    page ∈ held mem root (insert vpn S) ↔
      page = pte2pa (entry mem root vpn) ∨ page ∈ held mem root S := by
  rw [mem_held, mem_held]
  simp only [Set.mem_insert_iff, or_and_right, exists_or, exists_eq_left]
  constructor
  · rintro (htable | heq | hmapped)
    · exact Or.inr (Or.inl htable)
    · exact Or.inl heq.symm
    · exact Or.inr (Or.inr hmapped)
  · rintro (heq | htable | hmapped)
    · exact Or.inr (Or.inl heq.symm)
    · exact Or.inl htable
    · exact Or.inr (Or.inr hmapped)

/-- A space gets one more page, which it does not hold yet. -/
theorem Space.insert {mem : ℕ → Page} (h : Space mem root S) {vpn : ℕ} (hvpn : vpn < 2 ^ 26)
    (hvalid : Valid (entry mem root vpn)) (hout : pte2pa (entry mem root vpn) ∉ held mem root S) :
    Space mem root (insert vpn S) := by
  have hfresh : ∀ v ∈ S, pte2pa (entry mem root v) ≠ pte2pa (entry mem root vpn) :=
    fun v hv heq => hout (Or.inr ⟨v, hv, heq⟩)
  refine ⟨h.table, ?_, ?_, ?_, ?_⟩
  · rintro v (rfl | hv)
    · exact hvpn
    · exact h.small v hv
  · rintro v (rfl | hv)
    · exact hvalid
    · exact h.mapped v hv
  · rintro v (rfl | hv)
    · exact fun htable => hout (Or.inl htable)
    · exact h.apart v hv
  · rintro v (rfl | hv) v' (rfl | hv') heq
    · rfl
    · exact absurd heq.symm (hfresh v' hv')
    · exact absurd heq (hfresh v hv)
    · exact h.inj v hv v' hv' heq

/-- Writing to the pages of a space leaves its map alone. -/
theorem Space.touch (h : Space m.mem root S) (hapart : Apart m (held m.mem root S))
    (hfree : m'.free = m.free)
    (hframe : ∀ page, page ∉ targets m.mem root S → m'.mem page = m.mem page) :
    Change root S S ∅ (entry m.mem root) m m' := by
  have htables : ∀ page ∈ tables m.mem root, m'.mem page = m.mem page := by
    intro page hpage
    apply hframe
    rintro ⟨vpn, hvpn, rfl⟩
    exact h.apart vpn hvpn hpage
  refine ⟨Adds.of_node_eq fun _ hlength => node_frame htables hlength, h.frame htables, ?_,
    fun vpn _ => entry_frame htables vpn⟩
  rw [held_frame htables]
  apply Moves.touch hapart hfree
  intro page hpage
  exact hframe page fun htarget => hpage (Or.inr htarget)

theorem Space.refl (h : Space m.mem root S) (hapart : Apart m (held m.mem root S)) :
    Change root S S ∅ (entry m.mem root) m m :=
  h.touch hapart rfl fun _ _ => rfl

theorem Space.mono (h : Space m.mem root S) (hsub : S' ⊆ S) : Space m.mem root S' :=
  ⟨h.table, fun v hv => h.small v (hsub hv), fun v hv => h.mapped v (hsub hv),
    fun v hv => h.apart v (hsub hv), fun v hv v' hv' => h.inj v (hsub hv) v' (hsub hv')⟩

theorem Change.apart (h : Change root S S' added map m m')
    (hapart : Apart m (held m.mem root S)) : Apart m' (held m'.mem root S') where
  nodup := h.moves.nodup
  apart := h.moves.apart
  bounded := by
    intro page hpage
    rcases (h.moves.conserve page).mp (Or.inr hpage) with (htable | ⟨vpn, -, rfl⟩) | hfree
    · exact absurd (Or.inl (h.tables_subset htable)) (h.moves.apart page hpage)
    · exact pte2pa_lt _
    · exact hapart.bounded page hfree

theorem Change.trans (h : Change root S S' added map m m')
    (h' : Change root S' S'' added' map' m' m'') :
    Change root S S'' (added ∪ added') map' m m'' where
  toAdds := h.toAdds.trans h'.toAdds
  space := h'.space
  moves := h.moves.trans h'.moves
  entry_eq := h'.entry_eq

theorem Change.congr (h : Change root S S' added map m m')
    (hmap : ∀ vpn, vpn < 2 ^ 26 → map vpn = map' vpn) : Change root S S' added map' m m' :=
  { h with entry_eq := fun vpn hvpn => (h.entry_eq vpn hvpn).trans (hmap vpn hvpn) }

theorem Apart.mono {held held' : Set ℕ} (h : Apart m held) (hsub : held' ⊆ held) :
    Apart m held' :=
  ⟨h.nodup, fun page hpage hheld => h.apart page hpage (hsub hheld), h.bounded⟩

theorem Space.ready (h : Space m.mem root S) (hapart : Apart m (held m.mem root S)) :
    Ready m root where
  toApart := hapart.mono Set.subset_union_left
  table := h.table

/-- An edit of the table that keeps the pages mapped at `S` is a change of the
space. -/
theorem Edit.retarget (h : Edit root added map m m') (hspace : Space m.mem root S)
    (hapart : Apart m (held m.mem root S))
    (hmap : ∀ vpn ∈ S, Valid (map vpn) ∧ pte2pa (map vpn) = pte2pa (entry m.mem root vpn)) :
    Change root S S added map m m' := by
  have hentry : ∀ vpn ∈ S, Valid (entry m'.mem root vpn) ∧
      pte2pa (entry m'.mem root vpn) = pte2pa (entry m.mem root vpn) := by
    intro vpn hvpn
    rw [h.entry_eq vpn (hspace.small vpn hvpn)]
    exact hmap vpn hvpn
  have htables : ∀ page, page ∈ tables m'.mem root → page ∈ tables m.mem root ∨ page ∈ m.free :=
    fun page hpage => (h.moves.conserve page).mp (Or.inl hpage)
  have htarget : ∀ page, (∃ vpn ∈ S, pte2pa (entry m'.mem root vpn) = page) ↔
      ∃ vpn ∈ S, pte2pa (entry m.mem root vpn) = page := by
    intro page
    constructor
    · rintro ⟨vpn, hvpn, rfl⟩
      exact ⟨vpn, hvpn, (hentry vpn hvpn).2.symm⟩
    · rintro ⟨vpn, hvpn, rfl⟩
      exact ⟨vpn, hvpn, (hentry vpn hvpn).2⟩
  have hnottable : ∀ vpn ∈ S, pte2pa (entry m.mem root vpn) ∉ tables m'.mem root := by
    intro vpn hvpn htable
    rcases htables _ htable with htable | hfree
    · exact hspace.apart vpn hvpn htable
    · exact hapart.apart _ hfree (Or.inr ⟨vpn, hvpn, rfl⟩)
  refine ⟨h.toAdds, ⟨h.table, hspace.small, ?_, ?_, ?_⟩, ⟨h.moves.nodup, ?_, ?_, ?_⟩,
    h.entry_eq⟩
  · exact fun vpn hvpn => (hentry vpn hvpn).1
  · intro vpn hvpn
    rw [(hentry vpn hvpn).2]
    exact hnottable vpn hvpn
  · intro vpn hvpn vpn' hvpn'
    rw [(hentry vpn hvpn).2, (hentry vpn' hvpn').2]
    exact hspace.inj vpn hvpn vpn' hvpn'
  · intro page hpage hheld
    rcases mem_held.mp hheld with htable | htarget'
    · exact h.moves.apart page hpage htable
    · exact hapart.apart page (h.free_subset hpage) (Or.inr ((htarget page).mp htarget'))
  · intro page
    rw [mem_held, mem_held, htarget, or_right_comm, h.moves.conserve page, or_right_comm]
  · intro page hheld hfree
    rw [mem_held, not_or] at hheld
    exact h.moves.frame page hheld.1 hfree

/-- So is one that leaves the words at `S` alone. -/
theorem Edit.change (h : Edit root added map m m') (hspace : Space m.mem root S)
    (hapart : Apart m (held m.mem root S))
    (hmap : ∀ vpn ∈ S, map vpn = entry m.mem root vpn) : Change root S S added map m m' := by
  apply h.retarget hspace hapart
  intro vpn hvpn
  rw [hmap vpn hvpn]
  exact ⟨hspace.mapped vpn hvpn, rfl⟩

end Changes

section Pages

variable {root : ℕ} {m : Machine} {S : Set ℕ}

/-- The memory with a page taken off the free list and given contents. -/
def take (m : Machine) (page : ℕ) (free : List ℕ) (content : Page) : Machine :=
  ⟨Function.update m.mem page content, free⟩

theorem take_of_ne (m : Machine) {page other : ℕ} (free : List ℕ) (content : Page)
    (hne : other ≠ page) : (take m page free content).mem other = m.mem other :=
  Function.update_of_ne hne _ _

/-- With a page off the list the space is as before, and the page is in nobody's
hands. -/
theorem take_spec (h : Space m.mem root S) (hapart : Apart m (held m.mem root S)) {page : ℕ}
    {free : List ℕ} (hfree : m.free = page :: free) (content : Page) :
    Space (take m page free content).mem root S ∧
      Apart (take m page free content) (held (take m page free content).mem root S) ∧
      entry (take m page free content).mem root = entry m.mem root ∧
      tables (take m page free content).mem root = tables m.mem root ∧
      held (take m page free content).mem root S = held m.mem root S ∧
      (∀ path : List (Fin 512), path.length ≤ 2 →
        node next (take m page free content).mem root path = node next m.mem root path) ∧
      page ∉ held m.mem root S ∧ page ∉ free ∧ page < 2 ^ 52 := by
  have hpage : page ∉ held m.mem root S := hapart.apart page (by simp [hfree])
  have hframe : ∀ other ∈ tables m.mem root,
      (take m page free content).mem other = m.mem other := by
    intro other hother
    apply take_of_ne
    rintro rfl
    exact hpage (Or.inl hother)
  have hheld : held (take m page free content).mem root S = held m.mem root S := held_frame hframe
  have hnodup := hapart.nodup
  rw [hfree, List.nodup_cons] at hnodup
  refine ⟨h.frame hframe, ⟨hnodup.2, ?_, ?_⟩, funext (entry_frame hframe), tables_frame hframe,
    hheld, fun path hlength => node_frame hframe hlength, hpage, hnodup.1,
    hapart.bounded page (by simp [hfree])⟩
  · intro other hother
    rw [hheld]
    exact hapart.apart other (by simp [hfree, show other ∈ free from hother])
  · intro other hother
    exact hapart.bounded other (by simp [hfree, show other ∈ free from hother])

/-- A page taken off the list is mapped at `vpn`. -/
theorem Change.map_page (h : Space m.mem root S) (hapart : Apart m (held m.mem root S))
    {page : ℕ} {free : List ℕ} (hfree : m.free = page :: free) (content : Page) {vpn : ℕ}
    (hvpn : vpn < 2 ^ 26) (hnew : vpn ∉ S) {flags : Word} (hflags : flags.toNat < 2 ^ 10)
    {added : Finset (List (Fin 512))} {m' : Machine}
    (hedit : Edit root added
      (Function.update (entry m.mem root) vpn (pa2pte page ||| flags ||| pteV))
      (take m page free content) m') :
    Change root S (insert vpn S) added
      (Function.update (entry m.mem root) vpn (pa2pte page ||| flags ||| pteV)) m m' := by
  obtain ⟨hspace₁, hapart₁, hentry₁, htables₁, hheld₁, hnode₁, hpage, hnotfree, hbound⟩ :=
    take_spec h hapart hfree content
  have hflags' : (flags ||| pteV).toNat < 2 ^ 10 := by
    rw [BitVec.toNat_or]
    exact Nat.or_lt_two_pow hflags (by decide)
  have htarget : pte2pa (pa2pte page ||| flags ||| pteV) = page := by
    rw [BitVec.or_assoc]
    exact pte2pa_entry hbound hflags'
  have hne : ∀ v ∈ S, v ≠ vpn := fun v hv heq => hnew (heq ▸ hv)
  have hchange := hedit.change hspace₁ hapart₁ (by
    intro v hv
    rw [Function.update_of_ne (hne v hv), hentry₁])
  have hentry : entry m'.mem root vpn = pa2pte page ||| flags ||| pteV := by
    rw [hedit.entry_eq vpn hvpn, Function.update_self]
  have hpte : pte2pa (entry m'.mem root vpn) = page := by rw [hentry, htarget]
  -- The page is neither a table nor mapped elsewhere.
  have hout : page ∉ held m'.mem root S := by
    intro hheld
    rcases (hchange.moves.conserve page).mp (Or.inl hheld) with hheld | hmem
    · rw [hheld₁] at hheld
      exact hpage hheld
    · exact hnotfree hmem
  have hspace : Space m'.mem root (insert vpn S) :=
    hchange.space.insert hvpn (by rw [hentry]; exact valid_entry _ _) (by rwa [hpte])
  have hheld' : ∀ other, other ∈ held m'.mem root (insert vpn S) ↔
      other = page ∨ other ∈ held m'.mem root S := by
    intro other
    rw [mem_held_insert, hpte]
  refine ⟨⟨?_, ?_⟩, hspace, ⟨hchange.moves.nodup, ?_, ?_, ?_⟩, hedit.entry_eq⟩
  · intro path hlength hpath
    rw [hedit.old path hlength hpath, hnode₁ path hlength]
  · intro path hpath
    obtain ⟨hlength, hnone, hsome⟩ := hedit.new path hpath
    rw [hnode₁ path hlength] at hnone
    exact ⟨hlength, hnone, hsome⟩
  · intro other hother hmem
    rcases (hheld' other).mp hmem with rfl | hmem
    · rcases (hchange.moves.conserve other).mp (Or.inr hother) with hheld | hmem
      · rw [hheld₁] at hheld
        exact hpage hheld
      · exact hnotfree hmem
    · exact hchange.moves.apart other hother hmem
  · intro other
    rw [hheld' other, or_assoc, hchange.moves.conserve other, hheld₁, hfree, List.mem_cons]
    change other = page ∨ (other ∈ held m.mem root S ∨ other ∈ free) ↔ _
    tauto
  · intro other hheld hother
    rw [hfree, List.mem_cons, not_or] at hother
    rw [hchange.moves.frame other (by rw [hheld₁]; exact hheld) hother.2]
    exact take_of_ne m free content hother.1

end Pages

end OperateSystem.Vm

import OperateSystem.Vm.Grow

/-!
# Freeing page tables

`freewalk` and `freeallocatewalk` visit a table depth first and free every page of
it once.  The first panics when the last level still maps something; the second
leaves the pages mapped there alone.
-/

namespace OperateSystem.Vm

open OperateSystem.PointerTree

/-- The shape of a table whose last level is `depth` levels below its root. -/
structure Shape (depth : ℕ) (mem : ℕ → Page) (root : ℕ) : Prop where
  unshared : Unshared next depth mem root
  inner : ∀ path page i, path.length < depth → node next mem root path = some page →
    Valid (mem page i) → ¬ Leaf (mem page i)
  leaf : ∀ path page i, path.length = depth → node next mem root path = some page →
    Valid (mem page i) → Leaf (mem page i)

/-- The last level maps something. -/
def Maps (depth : ℕ) (mem : ℕ → Page) (root : ℕ) : Prop :=
  ∃ path page i, path.length = depth ∧ node next mem root path = some page ∧ Valid (mem page i)

/-- The pages go to the front of the free list, and no other page changes. -/
structure Released (pages : List ℕ) (m m' : Machine) : Prop where
  nodup : pages.Nodup
  free : m'.free = pages ++ m.free
  frame : ∀ page, page ∉ pages → m'.mem page = m.mem page

section Shapes

variable {depth : ℕ} {mem mem' : ℕ → Page} {root child : ℕ} {i : Fin 512}

theorem Table.shape (h : Table mem root) : Shape 2 mem root := ⟨h.unshared, h.inner, h.leaf⟩

theorem Shape.subtable (h : Shape (depth + 1) mem root) (hchild : next (mem root i) = some child) :
    Shape depth mem child := by
  refine ⟨h.unshared.subtree hchild, ?_, ?_⟩
  · intro path page j hlength hpath
    rw [node_child hchild] at hpath
    exact h.inner (i :: path) page j (by simpa using hlength) hpath
  · intro path page j hlength hpath
    rw [node_child hchild] at hpath
    exact h.leaf (i :: path) page j (by simpa using hlength) hpath

theorem Shape.frame (h : Shape depth mem root)
    (hframe : ∀ page ∈ Nodes next depth mem root, mem' page = mem page) :
    Shape depth mem' root := by
  have hnode : ∀ path : List (Fin 512), path.length ≤ depth →
      node next mem' root path = node next mem root path :=
    fun _ hlength => node_frame hframe hlength
  refine ⟨h.unshared.congr hnode, ?_, ?_⟩
  · intro path page j hlength hpath
    rw [hnode path (by omega)] at hpath
    rw [hframe page ⟨path, by omega, hpath⟩]
    exact h.inner path page j hlength hpath
  · intro path page j hlength hpath
    rw [hnode path (by omega)] at hpath
    rw [hframe page ⟨path, by omega, hpath⟩]
    exact h.leaf path page j hlength hpath

theorem maps_frame (hframe : ∀ page ∈ Nodes next depth mem root, mem' page = mem page) :
    Maps depth mem' root ↔ Maps depth mem root := by
  constructor
  · rintro ⟨path, page, j, hlength, hpath, hvalid⟩
    rw [node_frame hframe (by omega)] at hpath
    rw [hframe page ⟨path, by omega, hpath⟩] at hvalid
    exact ⟨path, page, j, hlength, hpath, hvalid⟩
  · rintro ⟨path, page, j, hlength, hpath, hvalid⟩
    refine ⟨path, page, j, hlength, ?_, ?_⟩
    · rw [node_frame hframe (by omega), hpath]
    · rw [hframe page ⟨path, by omega, hpath⟩]
      exact hvalid

theorem maps_succ : Maps (depth + 1) mem root ↔
    ∃ i child, next (mem root i) = some child ∧ Maps depth mem child := by
  constructor
  · rintro ⟨path, page, j, hlength, hpath, hvalid⟩
    cases path with
    | nil => cases hlength
    | cons i path =>
        obtain ⟨child, hchild, hpath⟩ := Option.bind_eq_some_iff.mp hpath
        exact ⟨i, child, hchild, path, page, j, by simpa using hlength, hpath, hvalid⟩
  · rintro ⟨i, child, hchild, path, page, j, hlength, hpath, hvalid⟩
    rw [node_child hchild] at hpath
    exact ⟨i :: path, page, j, by simpa using hlength, hpath, hvalid⟩

end Shapes

/-- The subtrees of `root` at the words `is`, as the loop finds them. -/
structure Forest (depth : ℕ) (mem : ℕ → Page) (root : ℕ) (is : List (Fin 512)) : Prop where
  inner : ∀ i ∈ is, Valid (mem root i) → ¬ Leaf (mem root i)
  shape : ∀ i ∈ is, ∀ child, next (mem root i) = some child → Shape depth mem child
  above : ∀ i ∈ is, ∀ child, next (mem root i) = some child → root ∉ Nodes next depth mem child
  disjoint : ∀ i ∈ is, ∀ j ∈ is, i ≠ j → ∀ child child', next (mem root i) = some child →
    next (mem root j) = some child' →
    Disjoint (Nodes next depth mem child) (Nodes next depth mem child')

/-- The pages of the subtrees at the words `is`. -/
def Below (depth : ℕ) (mem : ℕ → Page) (root : ℕ) (is : List (Fin 512)) : Set ℕ :=
  { page | ∃ i ∈ is, ∃ child, next (mem root i) = some child ∧ page ∈ Nodes next depth mem child }

/-- Some subtree at the words `is` maps something. -/
def MapsBelow (depth : ℕ) (mem : ℕ → Page) (root : ℕ) (is : List (Fin 512)) : Prop :=
  ∃ i ∈ is, ∃ child, next (mem root i) = some child ∧ Maps depth mem child

section Forests

variable {depth : ℕ} {mem mem' : ℕ → Page} {root : ℕ} {is : List (Fin 512)}

theorem Shape.forest (h : Shape (depth + 1) mem root) (is : List (Fin 512)) :
    Forest depth mem root is where
  inner := fun i _ => h.inner [] root i (by simp) rfl
  shape := fun _ _ _ hchild => h.subtable hchild
  above := fun _ _ _ hchild => h.unshared.root_not_mem hchild
  disjoint := fun _ _ _ _ hne _ _ hchild hchild' => h.unshared.disjoint hchild hchild' hne

/-- What the loop leaves alone looks the same to it. -/
theorem Forest.frame (h : Forest depth mem root is) (hroot : ∀ i ∈ is, mem' root i = mem root i)
    (hframe : ∀ page ∈ Below depth mem root is, mem' page = mem page) :
    Forest depth mem' root is ∧ Below depth mem' root is = Below depth mem root is ∧
      (MapsBelow depth mem' root is ↔ MapsBelow depth mem root is) := by
  have hchild : ∀ i ∈ is, ∀ child, next (mem root i) = some child →
      ∀ page ∈ Nodes next depth mem child, mem' page = mem page :=
    fun i hi child hchild page hpage => hframe page ⟨i, hi, child, hchild, hpage⟩
  have hnodes : ∀ i ∈ is, ∀ child, next (mem root i) = some child →
      Nodes next depth mem' child = Nodes next depth mem child :=
    fun i hi child hc => nodes_congr fun _ hlength => node_frame (hchild i hi child hc) hlength
  refine ⟨⟨?_, ?_, ?_, ?_⟩, ?_, ?_⟩
  · intro i hi
    rw [hroot i hi]
    exact h.inner i hi
  · intro i hi child hc
    rw [hroot i hi] at hc
    exact (h.shape i hi child hc).frame (hchild i hi child hc)
  · intro i hi child hc
    rw [hroot i hi] at hc
    rw [hnodes i hi child hc]
    exact h.above i hi child hc
  · intro i hi j hj hne child child' hc hc'
    rw [hroot i hi] at hc
    rw [hroot j hj] at hc'
    rw [hnodes i hi child hc, hnodes j hj child' hc']
    exact h.disjoint i hi j hj hne child child' hc hc'
  · ext page
    constructor
    · rintro ⟨i, hi, child, hc, hpage⟩
      rw [hroot i hi] at hc
      rw [hnodes i hi child hc] at hpage
      exact ⟨i, hi, child, hc, hpage⟩
    · rintro ⟨i, hi, child, hc, hpage⟩
      refine ⟨i, hi, child, by rw [hroot i hi, hc], ?_⟩
      rw [hnodes i hi child hc]
      exact hpage
  · constructor
    · rintro ⟨i, hi, child, hc, hmaps⟩
      rw [hroot i hi] at hc
      exact ⟨i, hi, child, hc, (maps_frame (hchild i hi child hc)).mp hmaps⟩
    · rintro ⟨i, hi, child, hc, hmaps⟩
      exact ⟨i, hi, child, by rw [hroot i hi, hc], (maps_frame (hchild i hi child hc)).mpr hmaps⟩

theorem mem_below_cons {i : Fin 512} {page : ℕ} :
    page ∈ Below depth mem root (i :: is) ↔
      (∃ child, next (mem root i) = some child ∧ page ∈ Nodes next depth mem child) ∨
        page ∈ Below depth mem root is := by
  simp [Below]

theorem mapsBelow_cons {i : Fin 512} :
    MapsBelow depth mem root (i :: is) ↔
      (∃ child, next (mem root i) = some child ∧ Maps depth mem child) ∨
        MapsBelow depth mem root is := by
  simp [MapsBelow]

theorem Forest.tail {i : Fin 512} (h : Forest depth mem root (i :: is)) :
    Forest depth mem root is where
  inner := fun j hj => h.inner j (List.mem_cons_of_mem _ hj)
  shape := fun j hj => h.shape j (List.mem_cons_of_mem _ hj)
  above := fun j hj => h.above j (List.mem_cons_of_mem _ hj)
  disjoint := fun j hj k hk => h.disjoint j (List.mem_cons_of_mem _ hj) k
    (List.mem_cons_of_mem _ hk)

end Forests

section Walk

/-- The body of the loop of `releaseWalk`. -/
def releaseWord (leafPanics : Bool) (fuel root : ℕ) (m : Machine) (i : Fin 512) :
    Except Fault Machine :=
  let pte := m.mem root i
  if Valid pte ∧ ¬ Leaf pte then do
    let m ← releaseWalk leafPanics fuel (pte2pa pte) m
    return m.store root i 0
  else if Valid pte ∧ leafPanics = true then throw (.panic "freewalk: leaf")
  else return m

theorem releaseWalk_succ (leafPanics : Bool) (fuel root : ℕ) (m : Machine) :
    releaseWalk leafPanics (fuel + 1) root m
      = (List.foldlM (releaseWord leafPanics fuel root) m (List.finRange 512)).map
        fun m => m.kfree root := by
  rw [releaseWalk]
  change (List.foldlM (releaseWord leafPanics fuel root) m (List.finRange 512) >>= _) = _
  cases List.foldlM (releaseWord leafPanics fuel root) m (List.finRange 512) <;> rfl

/-- What a walk over a tree of the given depth does. -/
def WalkSpec (leafPanics : Bool) (depth fuel : ℕ) : Prop :=
  ∀ root m, Shape depth m.mem root →
    (leafPanics = true ∧ Maps depth m.mem root ∧
      releaseWalk leafPanics fuel root m = .error (.panic "freewalk: leaf")) ∨
    (¬ (leafPanics = true ∧ Maps depth m.mem root) ∧
      ∃ pages m', releaseWalk leafPanics fuel root m = .ok m' ∧ Released pages m m' ∧
        ∀ page, page ∈ pages ↔ page ∈ Nodes next depth m.mem root)

variable {leafPanics : Bool} {depth fuel root : ℕ}

/-- At the last level the loop only looks for leaves. -/
theorem foldlM_last (leafPanics : Bool) (fuel : ℕ) (is : List (Fin 512)) {m : Machine}
    (hleaf : ∀ i ∈ is, Valid (m.mem root i) → Leaf (m.mem root i)) :
    List.foldlM (releaseWord leafPanics fuel root) m is
      = if leafPanics = true ∧ ∃ i ∈ is, Valid (m.mem root i) then
          .error (.panic "freewalk: leaf") else .ok m := by
  induction is with
  | nil =>
      rw [if_neg (by simp)]
      rfl
  | cons i is ih =>
      have hword : releaseWord leafPanics fuel root m i
          = if Valid (m.mem root i) ∧ leafPanics = true then .error (.panic "freewalk: leaf")
            else .ok m := by
        rw [releaseWord, if_neg (fun h => h.2 (hleaf i (by simp) h.1))]
        rfl
      rw [List.foldlM_cons, hword]
      by_cases hpanic : Valid (m.mem root i) ∧ leafPanics = true
      · rw [if_pos hpanic, error_bind, if_pos ⟨hpanic.2, i, by simp, hpanic.1⟩]
      · rw [if_neg hpanic, ok_bind, ih fun j hj => hleaf j (List.mem_cons_of_mem _ hj)]
        congr 1
        simp only [List.mem_cons, exists_eq_or_imp, eq_iff_iff]
        tauto

/-- A word of an upper table: nothing happens, or its subtree is released and the
word cleared. -/
theorem releaseWord_upper (hspec : WalkSpec leafPanics depth fuel) {i : Fin 512}
    {is : List (Fin 512)} {m : Machine} (h : Forest depth m.mem root (i :: is)) (hi : i ∉ is) :
    (leafPanics = true ∧ MapsBelow depth m.mem root [i] ∧
      releaseWord leafPanics fuel root m i = .error (.panic "freewalk: leaf")) ∨
    (¬ (leafPanics = true ∧ MapsBelow depth m.mem root [i]) ∧
      ∃ pages m', releaseWord leafPanics fuel root m i = .ok m' ∧ pages.Nodup ∧
        (∀ page, page ∈ pages ↔ page ∈ Below depth m.mem root [i]) ∧
        m'.free = pages ++ m.free ∧
        (∀ page, page ∉ pages → page ≠ root → m'.mem page = m.mem page) ∧
        (∀ j ∈ is, m'.mem root j = m.mem root j)) := by
  by_cases hvalid : Valid (m.mem root i)
  · have hchild := next_of_valid hvalid
    have hinner := h.inner i (by simp) hvalid
    have hroot := h.above i (by simp) _ hchild
    have hmaps : MapsBelow depth m.mem root [i] ↔ Maps depth m.mem (pte2pa (m.mem root i)) := by
      simp [MapsBelow, hchild]
    have hbelow : Below depth m.mem root [i] = Nodes next depth m.mem (pte2pa (m.mem root i)) := by
      ext page
      simp [Below, hchild]
    have hword : releaseWord leafPanics fuel root m i
        = (releaseWalk leafPanics fuel (pte2pa (m.mem root i)) m).map
          fun m => m.store root i 0 := by
      rw [releaseWord, if_pos ⟨hvalid, hinner⟩]
      cases releaseWalk leafPanics fuel (pte2pa (m.mem root i)) m <;> rfl
    rw [hmaps, hbelow, hword]
    rcases hspec _ m (h.shape i (by simp) _ hchild) with
      ⟨hpanics, hmapped, hwalk⟩ | ⟨hclean, pages, m', hwalk, hreleased, hpages⟩
    · rw [hwalk]
      exact Or.inl ⟨hpanics, hmapped, rfl⟩
    · have hnot : root ∉ pages := fun hmem => hroot ((hpages root).mp hmem)
      rw [hwalk]
      refine Or.inr ⟨hclean, pages, m'.store root i 0, rfl, hreleased.nodup, hpages,
        hreleased.free, ?_, ?_⟩
      · intro page hpage hne
        rw [store_of_ne _ _ _ hne, hreleased.frame page hpage]
      · intro j hj
        have hne : j ≠ i := fun heq => hi (heq ▸ hj)
        rw [store_same, if_neg hne, hreleased.frame root hnot]
  · have hnone := next_eq_none.mpr hvalid
    refine Or.inr ⟨?_, [], m, ?_, by simp, ?_, rfl, fun _ _ _ => rfl, fun _ _ => rfl⟩
    · rintro ⟨-, j, hj, child, hchild, -⟩
      rw [List.mem_singleton] at hj
      rw [hj, hnone] at hchild
      cases hchild
    · rw [releaseWord, if_neg (fun h => hvalid h.1), if_neg (fun h => hvalid h.1)]
      rfl
    · intro page
      simp [Below, hnone]

/-- The loop over the words of an upper table. -/
theorem foldlM_upper (hspec : WalkSpec leafPanics depth fuel) {is : List (Fin 512)}
    (hnodup : is.Nodup) {m : Machine} (h : Forest depth m.mem root is) :
    (leafPanics = true ∧ MapsBelow depth m.mem root is ∧
      List.foldlM (releaseWord leafPanics fuel root) m is
        = .error (.panic "freewalk: leaf")) ∨
    (¬ (leafPanics = true ∧ MapsBelow depth m.mem root is) ∧
      ∃ pages m', List.foldlM (releaseWord leafPanics fuel root) m is = .ok m' ∧ pages.Nodup ∧
        (∀ page, page ∈ pages ↔ page ∈ Below depth m.mem root is) ∧
        m'.free = pages ++ m.free ∧
        ∀ page, page ∉ pages → page ≠ root → m'.mem page = m.mem page) := by
  induction is generalizing m with
  | nil =>
      refine Or.inr ⟨?_, [], m, rfl, by simp, by simp [Below], rfl, fun _ _ _ => rfl⟩
      simp [MapsBelow]
  | cons i is ih =>
      obtain ⟨hi, hnodup'⟩ := List.nodup_cons.mp hnodup
      have hcons : MapsBelow depth m.mem root (i :: is) ↔
          MapsBelow depth m.mem root [i] ∨ MapsBelow depth m.mem root is := by
        rw [mapsBelow_cons]
        simp [MapsBelow]
      have hbelow : ∀ page, page ∈ Below depth m.mem root (i :: is) ↔
          page ∈ Below depth m.mem root [i] ∨ page ∈ Below depth m.mem root is := by
        intro page
        rw [mem_below_cons]
        simp [Below]
      rw [List.foldlM_cons]
      rcases releaseWord_upper hspec h hi with
        ⟨hpanics, hmaps, hword⟩ | ⟨hclean, pages, m₁, hword, hpagesNodup, hpages, hfree, hframe,
          hwords⟩
      · rw [hword]
        exact Or.inl ⟨hpanics, hcons.mpr (Or.inl hmaps), rfl⟩
      · -- The other subtrees have no page in common with the one just released.
        have hapart : ∀ page ∈ Below depth m.mem root is, page ∉ pages := by
          rintro page ⟨j, hj, child', hchild', hpage'⟩ hmem
          obtain ⟨k, hk, child, hchild, hpage⟩ := (hpages page).mp hmem
          rw [List.mem_singleton] at hk
          subst hk
          exact Set.disjoint_left.mp (h.disjoint k (by simp) j (List.mem_cons_of_mem _ hj)
            (fun heq => hi (heq ▸ hj)) child child' hchild hchild') hpage hpage'
        have habove : ∀ page ∈ Below depth m.mem root is, page ≠ root := by
          rintro page ⟨j, hj, child, hchild, hpage⟩ rfl
          exact h.above j (List.mem_cons_of_mem _ hj) child hchild hpage
        obtain ⟨hforest, hsame, hmapsame⟩ := h.tail.frame hwords
          fun page hpage => hframe page (hapart page hpage) (habove page hpage)
        rw [hword, ok_bind]
        rcases ih hnodup' hforest with
          ⟨hpanics, hmaps, hloop⟩ | ⟨hclean', pages', m', hloop, hnodup₂, hpages', hfree', hframe'⟩
        · exact Or.inl ⟨hpanics, hcons.mpr (Or.inr (hmapsame.mp hmaps)), hloop⟩
        · rw [hsame] at hpages'
          rw [hmapsame] at hclean'
          refine Or.inr ⟨?_, pages' ++ pages, m', hloop, ?_, ?_, ?_, ?_⟩
          · rw [hcons]
            tauto
          · refine List.nodup_append.mpr ⟨hnodup₂, hpagesNodup, ?_⟩
            intro page hpage other hother heq
            exact hapart page ((hpages' page).mp hpage) (heq ▸ hother)
          · intro page
            rw [List.mem_append, hpages', hpages, hbelow]
            exact or_comm
          · rw [hfree', hfree, List.append_assoc]
          · intro page hpage hne
            rw [List.mem_append, not_or] at hpage
            rw [hframe' page hpage.1 hne, hframe page hpage.2 hne]

/-- A walk with enough fuel for the depth of the tree. -/
theorem releaseWalk_spec (leafPanics : Bool) (hfuel : depth < fuel) :
    WalkSpec leafPanics depth fuel := by
  induction depth generalizing fuel with
  | zero =>
      intro root m h
      obtain ⟨fuel, rfl⟩ := Nat.exists_eq_succ_of_ne_zero (show fuel ≠ 0 by omega)
      have hlast := foldlM_last leafPanics fuel (List.finRange 512)
        (fun i _ => h.leaf [] root i rfl rfl)
      have hmaps : (∃ i ∈ List.finRange 512, Valid (m.mem root i)) ↔ Maps 0 m.mem root := by
        constructor
        · rintro ⟨i, -, hvalid⟩
          exact ⟨[], root, i, rfl, rfl, hvalid⟩
        · rintro ⟨path, page, i, hlength, hpath, hvalid⟩
          rw [List.length_eq_zero_iff.mp hlength] at hpath
          cases hpath
          exact ⟨i, by simp, hvalid⟩
      rw [releaseWalk_succ, hlast]
      by_cases hpanic : leafPanics = true ∧ Maps 0 m.mem root
      · rw [if_pos (by rwa [hmaps])]
        exact Or.inl ⟨hpanic.1, hpanic.2, rfl⟩
      · rw [if_neg (by rwa [hmaps])]
        refine Or.inr ⟨hpanic, [root], m.kfree root, rfl, ⟨by simp, rfl, ?_⟩, ?_⟩
        · intro page hpage
          rw [List.mem_singleton] at hpage
          exact fill_of_ne _ _ hpage
        · intro page
          rw [List.mem_singleton, mem_nodes]
          constructor
          · rintro rfl
            exact ⟨[], by simp, rfl⟩
          · rintro ⟨path, hlength, hpath⟩
            rw [List.length_eq_zero_iff.mp (Nat.le_zero.mp hlength)] at hpath
            exact (Option.some.inj hpath).symm
  | succ depth ih =>
      intro root m h
      obtain ⟨fuel, rfl⟩ := Nat.exists_eq_succ_of_ne_zero (show fuel ≠ 0 by omega)
      have hmaps : MapsBelow depth m.mem root (List.finRange 512) ↔
          Maps (depth + 1) m.mem root := by
        rw [maps_succ]
        simp [MapsBelow]
      have hbelow : ∀ page, page ∈ Nodes next (depth + 1) m.mem root ↔
          page = root ∨ page ∈ Below depth m.mem root (List.finRange 512) := by
        intro page
        rw [mem_nodes_succ]
        simp [Below]
      rw [releaseWalk_succ, ← hmaps]
      rcases foldlM_upper (ih (show depth < fuel by omega)) (List.nodup_finRange 512)
        (h.forest (List.finRange 512)) with
        ⟨hpanics, hmapped, hloop⟩ | ⟨hclean, pages, m', hloop, hnodup, hpages, hfree, hframe⟩
      · rw [hloop]
        exact Or.inl ⟨hpanics, hmapped, rfl⟩
      · have hroot : root ∉ pages := by
          intro hmem
          obtain ⟨i, -, child, hchild, hpage⟩ := (hpages root).mp hmem
          exact h.unshared.root_not_mem hchild hpage
        rw [hloop]
        refine Or.inr ⟨hclean, root :: pages, m'.kfree root, rfl,
          ⟨List.nodup_cons.mpr ⟨hroot, hnodup⟩, ?_, ?_⟩, ?_⟩
        · change root :: m'.free = root :: (pages ++ m.free)
          rw [hfree]
        · intro page hpage
          rw [List.mem_cons, not_or] at hpage
          rw [← hframe page hpage.2 hpage.1]
          exact fill_of_ne _ _ hpage.1
        · intro page
          rw [List.mem_cons, hbelow, hpages]

end Walk

section Tables

variable {m : Machine} {root : ℕ}

/-- The last level maps something when some virtual page is mapped. -/
theorem Table.maps_iff {mem : ℕ → Page} (h : Table mem root) :
    Maps 2 mem root ↔ ∃ vpn, vpn < 2 ^ 26 ∧ Valid (entry mem root vpn) := by
  constructor
  · rintro ⟨path, table, k, hlength, hpath, hvalid⟩
    obtain ⟨i, j, rfl⟩ := List.length_eq_two.mp hlength
    have hlow : i.val < 256 := by
      apply h.low i
      by_contra hinvalid
      rw [node, next_eq_none.mpr hinvalid] at hpath
      cases hpath
    obtain ⟨vpn, hvpn, hij, rfl⟩ := exists_vpn i j k
    rw [← hij] at hpath
    rw [← entry_of_node hpath] at hvalid
    exact ⟨vpn, by omega, hvalid⟩
  · rintro ⟨vpn, -, hvalid⟩
    obtain ⟨table, hnode⟩ := node_of_valid hvalid
    rw [entry_of_node hnode] at hvalid
    exact ⟨pathOf vpn, table, idx 0 vpn, rfl, hnode, hvalid⟩

theorem Released.moves {pages : List ℕ} {m' : Machine} {held : Set ℕ} (h : Released pages m m')
    (hpages : ∀ page, page ∈ pages ↔ page ∈ held) (hapart : Apart m held) :
    Moves held ∅ m m' := by
  refine ⟨?_, by simp, ?_, ?_⟩
  · rw [h.free]
    refine List.nodup_append.mpr ⟨h.nodup, hapart.nodup, ?_⟩
    rintro page hpage other hother rfl
    exact hapart.apart page hother ((hpages page).mp hpage)
  · intro page
    rw [h.free, List.mem_append, hpages]
    simp
  · intro page hheld _
    exact h.frame page fun hmem => hheld ((hpages page).mp hmem)

/-- `freewalk` of a table that maps nothing. -/
theorem freewalk_spec (h : Ready m root)
    (hzero : ∀ vpn, vpn < 2 ^ 26 → ¬ Valid (entry m.mem root vpn)) :
    ∃ m', freewalk m root = .ok m' ∧ Moves (tables m.mem root) ∅ m m' := by
  rcases releaseWalk_spec true (show 2 < 4 by decide) root m h.table.shape with
    ⟨-, hmaps, -⟩ | ⟨-, pages, m', hwalk, hreleased, hpages⟩
  · obtain ⟨vpn, hvpn, hvalid⟩ := h.table.maps_iff.mp hmaps
    exact absurd hvalid (hzero vpn hvpn)
  · exact ⟨m', hwalk, hreleased.moves hpages h.toApart⟩

/-- `freewalk` of a table that still maps a page. -/
theorem freewalk_panic (h : Table m.mem root) {vpn : ℕ} (hvpn : vpn < 2 ^ 26)
    (hvalid : Valid (entry m.mem root vpn)) :
    freewalk m root = .error (.panic "freewalk: leaf") := by
  rcases releaseWalk_spec true (show 2 < 4 by decide) root m h.shape with
    ⟨-, -, hwalk⟩ | ⟨hclean, -⟩
  · exact hwalk
  · exact absurd ⟨rfl, h.maps_iff.mpr ⟨vpn, hvpn, hvalid⟩⟩ hclean

/-- `kvmfree` frees the tables and nothing that they map. -/
theorem kvmfree_spec (h : Ready m root) :
    ∃ m', kvmfree m root = .ok m' ∧ Moves (tables m.mem root) ∅ m m' := by
  rcases releaseWalk_spec false (show 2 < 4 by decide) root m h.table.shape with
    ⟨hpanics, -⟩ | ⟨-, pages, m', hwalk, hreleased, hpages⟩
  · cases hpanics
  · exact ⟨m', hwalk, hreleased.moves hpages h.toApart⟩

/-- `uvmfree` of a table that maps the pages below its size and nothing else. -/
theorem uvmfree_spec {sz : ℕ} (hsz : sz < 2 ^ 63)
    (h : Space m.mem root (Set.Iio (pages sz)))
    (hapart : Apart m (held m.mem root (Set.Iio (pages sz))))
    (hrest : ∀ vpn, pages sz ≤ vpn → vpn < 2 ^ 26 → entry m.mem root vpn = 0) :
    ∃ m', uvmfree m root sz = .ok m' ∧ Moves (held m.mem root (Set.Iio (pages sz))) ∅ m m' := by
  obtain ⟨m₁, hunmap, -, hchange⟩ := uvmunmap_free (show 0 = 0 * 4096 by rfl) h hapart
    (show ∀ vpn, 0 ≤ vpn → vpn < 0 + pages sz → vpn ∈ Set.Iio (pages sz) by simp)
  have hempty : Set.Iio (pages sz) \ Set.Ico 0 (0 + pages sz) = ∅ := by
    ext vpn
    simp
  rw [hempty] at hchange
  have hzero : ∀ vpn, vpn < 2 ^ 26 → ¬ Valid (entry m₁.mem root vpn) := by
    intro vpn hvpn
    have hentry : entry m₁.mem root vpn = 0 := by
      rw [hchange.entry_eq vpn hvpn, clearMap]
      split
      · rfl
      · exact hrest vpn (by omega) hvpn
    rw [hentry]
    exact not_valid_zero
  obtain ⟨m', hwalk, hmoves⟩ := freewalk_spec (hchange.space.ready (hchange.apart hapart)) hzero
  rw [← held_empty] at hmoves
  refine ⟨m', ?_, hchange.moves.trans hmoves⟩
  have hpages : pgRoundUp sz / pgSize = pages sz := by
    rw [pgRoundUp_pages hsz, pgSize, Nat.mul_div_cancel _ (by decide)]
  rw [uvmfree, hpages]
  by_cases hpos : 0 < sz
  · rw [if_pos hpos, hunmap, ok_bind, hwalk]
  · have hnone : pages sz = 0 := by
      rw [pages]
      omega
    rw [hnone] at hunmap
    cases hunmap
    rw [if_neg hpos, ok_bind, hwalk]

end Tables

end OperateSystem.Vm

import Mathlib.Data.List.Basic
import Mathlib.Data.Set.Lattice
import Mathlib.Order.CompletePartialOrder

/-!
# Trees of pages in memory

A radix tree stored in memory: every word of a page may point to a further page.
A path of indices leads from the root to a page.  The tree is unshared when
different paths of bounded length lead to different pages; then a write to one
page changes only the paths through it, and hanging in a blank page adds exactly
one path.
-/

namespace OperateSystem.PointerTree

variable {Page Index Word : Type*} (next : Word → Option Page)

/-- The page at the end of a path. -/
def node (mem : Page → Index → Word) : Page → List Index → Option Page
  | page, [] => some page
  | page, i :: path => (next (mem page i)).bind fun child => node mem child path

/-- The pages within `depth` steps of the root. -/
def Nodes (depth : ℕ) (mem : Page → Index → Word) (root : Page) : Set Page :=
  { page | ∃ path, path.length ≤ depth ∧ node next mem root path = some page }

/-- No page is reached along two paths. -/
def Unshared (depth : ℕ) (mem : Page → Index → Word) (root : Page) : Prop :=
  ∀ path path' page, path.length ≤ depth → path'.length ≤ depth →
    node next mem root path = some page → node next mem root path' = some page → path = path'

section Paths

variable {next} {mem mem' : Page → Index → Word} {root : Page}

theorem node_append (path rest : List Index) :
    node next mem root (path ++ rest)
      = (node next mem root path).bind fun page => node next mem page rest := by
  induction path generalizing root with
  | nil => rfl
  | cons i path ih =>
      simp only [List.cons_append, node, Option.bind_assoc]
      congr 1
      funext child
      exact ih

theorem node_concat (path : List Index) (i : Index) :
    node next mem root (path ++ [i])
      = (node next mem root path).bind fun page => next (mem page i) := by
  rw [node_append]
  congr 1
  funext page
  simp [node]

/-- A path leads to the same page as long as the words along it do. -/
theorem node_congr {path : List Index}
    (h : ∀ before i after page, path = before ++ i :: after →
      node next mem root before = some page → next (mem' page i) = next (mem page i)) :
    node next mem' root path = node next mem root path := by
  induction path generalizing root with
  | nil => rfl
  | cons i path ih =>
      have hfirst : next (mem' root i) = next (mem root i) := h [] i path root rfl rfl
      simp only [node, hfirst]
      cases hchild : next (mem root i) with
      | none => rfl
      | some child =>
          apply ih
          intro before j after page heq hpage
          apply h (i :: before) j after page (by rw [heq, List.cons_append])
          simp only [node, hchild, Option.bind_some, hpage]

theorem mem_nodes {depth : ℕ} {page : Page} :
    page ∈ Nodes next depth mem root ↔
      ∃ path, path.length ≤ depth ∧ node next mem root path = some page := Iff.rfl

theorem root_mem_nodes (depth : ℕ) : root ∈ Nodes next depth mem root :=
  ⟨[], by simp, rfl⟩

/-- A tree sees nothing of what happens away from its pages. -/
theorem node_frame {depth : ℕ}
    (h : ∀ page ∈ Nodes next depth mem root, mem' page = mem page) {path : List Index}
    (hlength : path.length ≤ depth) : node next mem' root path = node next mem root path := by
  apply node_congr
  intro before i after page heq hpage
  rw [h page ⟨before, ?_, hpage⟩]
  rw [heq, List.length_append] at hlength
  omega

/-- Only the pages above the last level are read on the way. -/
theorem node_upper {depth : ℕ}
    (h : ∀ path page, path.length < depth → node next mem root path = some page →
      mem' page = mem page) {path : List Index} (hlength : path.length ≤ depth) :
    node next mem' root path = node next mem root path := by
  apply node_congr
  intro before i after page heq hpage
  rw [h before page _ hpage]
  rw [heq, List.length_append, List.length_cons] at hlength
  omega

/-- Trees with the same paths have the same pages. -/
theorem nodes_congr {depth : ℕ}
    (h : ∀ path : List Index, path.length ≤ depth →
      node next mem' root path = node next mem root path) :
    Nodes next depth mem' root = Nodes next depth mem root := by
  ext page
  constructor
  · rintro ⟨path, hlength, hpath⟩
    exact ⟨path, hlength, (h path hlength).symm.trans hpath⟩
  · rintro ⟨path, hlength, hpath⟩
    exact ⟨path, hlength, (h path hlength).trans hpath⟩

theorem Unshared.congr {depth : ℕ} (hunshared : Unshared next depth mem root)
    (h : ∀ path : List Index, path.length ≤ depth →
      node next mem' root path = node next mem root path) :
    Unshared next depth mem' root := by
  intro path path' page hlength hlength' hpath hpath'
  rw [h path hlength] at hpath
  rw [h path' hlength'] at hpath'
  exact hunshared path path' page hlength hlength' hpath hpath'

/-- A blank page has no pages below it. -/
theorem node_blank (h : ∀ i, next (mem root i) = none) (path : List Index) :
    node next mem root path = if path = [] then some root else none := by
  cases path with
  | nil => simp [node]
  | cons i path => simp [node, h i]

end Paths

section Insert

variable {next} {mem mem' : Page → Index → Word} {root page fresh : Page} {depth : ℕ}
  {path₀ : List Index} {i : Index}

/-- The memory `mem'` is `mem` with the blank page `fresh` hung in at word `i` of
`page`. -/
structure Hangs (next : Word → Option Page) (mem mem' : Page → Index → Word)
    (page : Page) (i : Index) (fresh : Page) : Prop where
  vacant : next (mem page i) = none
  link : next (mem' page i) = some fresh
  blank : ∀ j, next (mem' fresh j) = none
  other : ∀ page' j, page' ≠ fresh → (page' = page → j ≠ i) → mem' page' j = mem page' j

/-- Hanging in a blank page adds one path. -/
theorem Hangs.node_eq [DecidableEq Index] (h : Hangs next mem mem' page i fresh)
    (hunshared : Unshared next depth mem root) (hpage : node next mem root path₀ = some page)
    (hdepth : path₀.length < depth) (hfresh : fresh ∉ Nodes next depth mem root)
    {path : List Index} (hlength : path.length ≤ depth) :
    node next mem' root path
      = if path = path₀ ++ [i] then some fresh else node next mem root path := by
  -- Off the new link nothing changes.
  have hoff : ∀ path : List Index, path.length ≤ depth → (∀ rest, path ≠ path₀ ++ i :: rest) →
      node next mem' root path = node next mem root path := by
    intro path hlength hne
    apply node_congr
    intro before j after page' heq hpage'
    have hbefore : before.length ≤ depth := by
      rw [heq, List.length_append] at hlength
      omega
    rw [h.other page' j]
    · rintro rfl
      exact hfresh ⟨before, hbefore, hpage'⟩
    · rintro rfl rfl
      have hsame := hunshared before path₀ page' hbefore (by omega) hpage' hpage
      exact hne after (by rw [heq, hsame])
  by_cases hextends : ∃ rest, path = path₀ ++ i :: rest
  · obtain ⟨rest, rfl⟩ := hextends
    have hat : node next mem' root path₀ = some page := by
      rw [hoff path₀ (by omega) (by intro rest heq; simp at heq), hpage]
    rw [node_append, hat, Option.bind_some, node, h.link, Option.bind_some, node_blank h.blank,
      node_append, hpage, Option.bind_some, node, h.vacant]
    simp
  · push Not at hextends
    rw [hoff path hlength hextends, if_neg (hextends [])]

theorem Hangs.nodes_eq (h : Hangs next mem mem' page i fresh)
    (hunshared : Unshared next depth mem root) (hpage : node next mem root path₀ = some page)
    (hdepth : path₀.length < depth) (hfresh : fresh ∉ Nodes next depth mem root) :
    Nodes next depth mem' root = insert fresh (Nodes next depth mem root) := by
  classical
  have hvacant : node next mem root (path₀ ++ [i]) = none := by
    rw [node_concat, hpage, Option.bind_some, h.vacant]
  ext page'
  rw [Set.mem_insert_iff]
  constructor
  · rintro ⟨path, hlength, hpath⟩
    rw [h.node_eq hunshared hpage hdepth hfresh hlength] at hpath
    split at hpath
    · exact Or.inl (Option.some.inj hpath).symm
    · exact Or.inr ⟨path, hlength, hpath⟩
  · rintro (rfl | ⟨path, hlength, hpath⟩)
    · have hlength : (path₀ ++ [i]).length ≤ depth := by simpa using Nat.succ_le_of_lt hdepth
      refine ⟨path₀ ++ [i], hlength, ?_⟩
      rw [h.node_eq hunshared hpage hdepth hfresh hlength, if_pos rfl]
    · refine ⟨path, hlength, ?_⟩
      rw [h.node_eq hunshared hpage hdepth hfresh hlength, if_neg, hpath]
      rintro rfl
      rw [hvacant] at hpath
      cases hpath

theorem Hangs.unshared (h : Hangs next mem mem' page i fresh)
    (hunshared : Unshared next depth mem root) (hpage : node next mem root path₀ = some page)
    (hdepth : path₀.length < depth) (hfresh : fresh ∉ Nodes next depth mem root) :
    Unshared next depth mem' root := by
  classical
  intro path path' page' hlength hlength' hpath hpath'
  rw [h.node_eq hunshared hpage hdepth hfresh hlength] at hpath
  rw [h.node_eq hunshared hpage hdepth hfresh hlength'] at hpath'
  split at hpath <;> split at hpath'
  · rename_i heq heq'
    rw [heq, heq']
  · cases hpath
    exact absurd ⟨path', hlength', hpath'⟩ hfresh
  · cases hpath'
    exact absurd ⟨path, hlength, hpath⟩ hfresh
  · exact hunshared path path' page' hlength hlength' hpath hpath'

end Insert

section Subtrees

variable {next} {mem : Page → Index → Word} {root sub : Page} {depth : ℕ} {i : Index}

theorem node_child (hsub : next (mem root i) = some sub) (path : List Index) :
    node next mem sub path = node next mem root (i :: path) := by
  simp [node, hsub]

theorem nodes_child (hsub : next (mem root i) = some sub) :
    Nodes next depth mem sub ⊆ Nodes next (depth + 1) mem root := by
  rintro page ⟨path, hlength, hpath⟩
  exact ⟨i :: path, by simpa using hlength, (node_child hsub path).symm.trans hpath⟩

theorem Unshared.subtree (h : Unshared next (depth + 1) mem root)
    (hsub : next (mem root i) = some sub) : Unshared next depth mem sub := by
  intro path path' page hlength hlength' hpath hpath'
  rw [node_child hsub] at hpath hpath'
  have heq := h (i :: path) (i :: path') page (by simpa using hlength) (by simpa using hlength')
    hpath hpath'
  exact (List.cons.inj heq).2

/-- The root is not a page of its own subtrees. -/
theorem Unshared.root_not_mem (h : Unshared next (depth + 1) mem root)
    (hsub : next (mem root i) = some sub) : root ∉ Nodes next depth mem sub := by
  rintro ⟨path, hlength, hpath⟩
  rw [node_child hsub] at hpath
  have heq := h (i :: path) [] root (by simpa using hlength) (by simp) hpath rfl
  cases heq

/-- Different subtrees have no page in common. -/
theorem Unshared.disjoint (h : Unshared next (depth + 1) mem root) {j : Index} {sub' : Page}
    (hsub : next (mem root i) = some sub) (hsub' : next (mem root j) = some sub')
    (hne : i ≠ j) : Disjoint (Nodes next depth mem sub) (Nodes next depth mem sub') := by
  rw [Set.disjoint_left]
  rintro page ⟨path, hlength, hpath⟩ ⟨path', hlength', hpath'⟩
  rw [node_child hsub] at hpath
  rw [node_child hsub'] at hpath'
  have heq := h (i :: path) (j :: path') page (by simpa using hlength) (by simpa using hlength')
    hpath hpath'
  exact hne (List.cons.inj heq).1

/-- A page of a tree is the root or lies in one of the subtrees. -/
theorem mem_nodes_succ {page : Page} :
    page ∈ Nodes next (depth + 1) mem root ↔ page = root ∨
      ∃ i child, next (mem root i) = some child ∧ page ∈ Nodes next depth mem child := by
  constructor
  · rintro ⟨path, hlength, hpath⟩
    cases path with
    | nil => exact Or.inl (Option.some.inj hpath).symm
    | cons i path =>
        obtain ⟨child, hchild, hpath⟩ := Option.bind_eq_some_iff.mp hpath
        exact Or.inr ⟨i, child, hchild, path, by simpa using hlength, hpath⟩
  · rintro (rfl | ⟨i, child, hchild, hpage⟩)
    · exact root_mem_nodes _
    · exact nodes_child hchild hpage

end Subtrees

end OperateSystem.PointerTree

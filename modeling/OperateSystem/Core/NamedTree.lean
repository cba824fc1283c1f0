import Mathlib.Data.List.Basic
import Mathlib.Tactic.Common

/-!
# Trees with named edges

A tree is kept as a relation from a cell to its children, each of which carries
its own name, as directory entries do.  The path of a cell is the list of names
from the root to it.  Two changes are described: one that keeps the tree, and one
that hangs a new leaf under a cell.  Where the names stand on the edges, two trees
whose cells simulate each other have the same paths.
-/

namespace OperateSystem.NamedTree

variable {Cell Name : Type*}

/-- `cell` lies at the path `names` below `root`. -/
inductive Node (root : Cell) (child : Cell → Cell → Prop) (label : Cell → Option Name) :
    List Name → Cell → Prop
  | root : Node root child label [] root
  | child {names : List Name} {name : Name} {cell sub : Cell}
      (hnode : Node root child label names cell) (hchild : child cell sub)
      (hlabel : label sub = some name) : Node root child label (names ++ [name]) sub

variable {root : Cell} {child child' : Cell → Cell → Prop} {label label' : Cell → Option Name}

/-- The tree depends on the children and their names alone. -/
theorem Node.mono (hchild : ∀ cell sub, child cell sub → child' cell sub)
    (hlabel : ∀ cell sub, child cell sub → label' sub = label sub) {names : List Name}
    {cell : Cell} (h : Node root child label names cell) :
    Node root child' label' names cell := by
  induction h with
  | root => exact .root
  | child _ hsub hname ih =>
      exact .child ih (hchild _ _ hsub) ((hlabel _ _ hsub).trans hname)

theorem node_congr (hchild : ∀ cell sub, child' cell sub ↔ child cell sub)
    (hlabel : ∀ cell sub, child cell sub → label' sub = label sub) {names : List Name}
    {cell : Cell} : Node root child' label' names cell ↔ Node root child label names cell := by
  constructor
  · apply Node.mono
    · exact fun cell sub => (hchild cell sub).mp
    · exact fun cell sub hsub => (hlabel cell sub ((hchild cell sub).mp hsub)).symm
  · apply Node.mono
    · exact fun cell sub => (hchild cell sub).mpr
    · exact hlabel

/-- Hanging the leaf `leaf` with name `name` under `parent` adds the leaf at every path
that `parent` has. -/
theorem node_graft {parent leaf : Cell} {name : Name}
    (hchild : ∀ cell sub, child' cell sub ↔ child cell sub ∨ (cell = parent ∧ sub = leaf))
    (hlabel : ∀ cell sub, child cell sub → label' sub = label sub)
    (hleaf : label' leaf = some name) (hbare : ∀ sub, ¬ child leaf sub) (hne : parent ≠ leaf)
    {names : List Name} {cell : Cell} :
    Node root child' label' names cell ↔
      Node root child label names cell ∨
        ∃ above, Node root child label above parent ∧ names = above ++ [name] ∧ cell = leaf := by
  constructor
  · intro h
    induction h with
    | root => exact Or.inl .root
    | @child names next cell sub _ hsub hname ih =>
        rcases (hchild cell sub).mp hsub with hold | ⟨rfl, rfl⟩
        · rcases ih with hnode | ⟨-, -, -, rfl⟩
          · exact Or.inl (.child hnode hold ((hlabel cell sub hold).symm.trans hname))
          · exact absurd hold (hbare sub)
        · rcases ih with hnode | ⟨-, -, -, heq⟩
          · have heq : next = name := Option.some.inj (hname.symm.trans hleaf)
            exact Or.inr ⟨names, hnode, by rw [heq], rfl⟩
          · exact absurd heq hne
  · have hold : ∀ {names : List Name} {cell : Cell}, Node root child label names cell →
        Node root child' label' names cell :=
      Node.mono (fun cell sub hsub => (hchild cell sub).mpr (Or.inl hsub)) hlabel
    rintro (hnode | ⟨above, hparent, rfl, rfl⟩)
    · exact hold hnode
    · exact .child (hold hparent) ((hchild _ _).mpr (Or.inr ⟨rfl, rfl⟩)) hleaf

/-- When every cell has at most one parent and the root none, a cell has one path. -/
theorem Node.unique (hparent : ∀ cell cell' sub, child cell sub → child cell' sub → cell = cell')
    (hroot : ∀ cell, ¬ child cell root) {names names' : List Name} {cell : Cell}
    (h : Node root child label names cell) (h' : Node root child label names' cell) :
    names = names' := by
  induction h generalizing names' with
  | root =>
      cases h' with
      | root => rfl
      | child _ hsub _ => exact absurd hsub (hroot _)
  | child _ hsub hname ih =>
      cases h' with
      | root => exact absurd hsub (hroot _)
      | child hnode' hsub' hname' =>
          obtain rfl := hparent _ _ _ hsub hsub'
          rw [ih hnode', Option.some.inj (hname.symm.trans hname')]

section Simulation

variable {Cell' : Type*}

/-- `cell` lies at the path `names` below `root`, along named edges. -/
inductive Lies (root : Cell) (edge : Cell → Name → Cell → Prop) : List Name → Cell → Prop
  | root : Lies root edge [] root
  | step {names : List Name} {name : Name} {cell sub : Cell}
      (hlies : Lies root edge names cell) (hedge : edge cell name sub) :
      Lies root edge (names ++ [name]) sub

theorem Lies.nil {edge : Cell → Name → Cell → Prop} {root cell : Cell}
    (h : Lies root edge [] cell) : cell = root := by
  generalize hnames : ([] : List Name) = names at h
  cases h with
  | root => rfl
  | step _ _ => simp at hnames

/-- The last edge of a path. -/
theorem Lies.last {edge : Cell → Name → Cell → Prop} {root sub : Cell} {names : List Name}
    {name : Name} (h : Lies root edge (names ++ [name]) sub) :
    ∃ cell, Lies root edge names cell ∧ edge cell name sub := by
  generalize hpath : names ++ [name] = path at h
  cases h with
  | root => simp at hpath
  | step hlies hedge =>
      obtain ⟨rfl, hname⟩ := List.append_inj' hpath rfl
      cases hname
      exact ⟨_, hlies, hedge⟩

/-- When every edge is matched by an edge between related cells, so is every path. -/
theorem Lies.simulate {edge : Cell → Name → Cell → Prop} {root' : Cell'}
    {edge' : Cell' → Name → Cell' → Prop} (Same : Cell → Cell' → Prop) (hroot : Same root root')
    (hedge : ∀ cell cell' name sub, Same cell cell' → edge cell name sub →
      ∃ sub', edge' cell' name sub' ∧ Same sub sub') {names : List Name} {cell : Cell}
    (h : Lies root edge names cell) : ∃ cell', Lies root' edge' names cell' ∧ Same cell cell' := by
  induction h with
  | root => exact ⟨root', .root, hroot⟩
  | step _ hsub ih =>
      obtain ⟨cell', hlies, hsame⟩ := ih
      obtain ⟨sub', hsub', hsame'⟩ := hedge _ _ _ _ hsame hsub
      exact ⟨sub', .step hlies hsub', hsame'⟩

end Simulation

end OperateSystem.NamedTree

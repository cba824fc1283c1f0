import Mathlib.Data.List.Nodup
import Mathlib.Logic.Function.Basic

/-!
# Doubly linked rings

Nodes carry a `next` and a `prev` link.  A ring runs from its head through a
list of nodes back to the head, and every `prev` link undoes a `next` link.
The two operations of the buffer cache are unlinking a node and inserting a
node right after the head.
-/

namespace OperateSystem.Ring

variable {Node : Type*}

/-- The two links of every node. -/
structure Links (Node : Type*) where
  next : Node → Node
  prev : Node → Node

/-- The links lead from `start` through `nodes` to `stop`, in both
directions. -/
def Path (links : Links Node) : Node → List Node → Node → Prop
  | start, [], stop => links.next start = stop ∧ links.prev stop = start
  | start, node :: nodes, stop =>
      (links.next start = node ∧ links.prev node = start) ∧ Path links node nodes stop

/-- The well-formed doubly linked cycle of a head and the nodes after it. -/
def Cycle (links : Links Node) (head : Node) (nodes : List Node) : Prop :=
  Path links head nodes head

variable {links : Links Node}

theorem path_append {start node stop : Node} {left right : List Node} :
    Path links start (left ++ node :: right) stop ↔
      Path links start left node ∧ Path links node right stop := by
  induction left generalizing start with
  | nil => simp [Path]
  | cons first left ih => simp [Path, ih, and_assoc]

/-- Only the `next` links of the nodes that are left and the `prev` links of
the nodes that are entered matter. -/
theorem Path.frame {links' : Links Node} {start stop : Node} {nodes : List Node}
    (h : Path links start nodes stop)
    (hnext : ∀ node ∈ start :: nodes, links'.next node = links.next node)
    (hprev : ∀ node ∈ stop :: nodes, links'.prev node = links.prev node) :
    Path links' start nodes stop := by
  induction nodes generalizing start with
  | nil =>
      obtain ⟨hforward, hback⟩ := h
      exact ⟨by rw [hnext start (by simp), hforward], by rw [hprev stop (by simp), hback]⟩
  | cons node nodes ih =>
      obtain ⟨⟨hforward, hback⟩, hrest⟩ := h
      refine ⟨⟨by rw [hnext start (by simp), hforward],
        by rw [hprev node (by simp), hback]⟩, ih hrest ?_ ?_⟩
      · exact fun other hother => hnext other (List.mem_cons_of_mem _ hother)
      · intro other hother
        refine hprev other ?_
        rcases List.mem_cons.mp hother with rfl | hother
        · simp
        · simp [hother]

theorem Cycle.frame {links' : Links Node} {head : Node} {nodes : List Node}
    (h : Cycle links head nodes)
    (hnext : ∀ node ∈ head :: nodes, links'.next node = links.next node)
    (hprev : ∀ node ∈ head :: nodes, links'.prev node = links.prev node) :
    Cycle links' head nodes :=
  Path.frame h hnext hprev

/-- The links determine the nodes on the way to `stop`. -/
theorem Path.unique {start stop : Node} {left right : List Node}
    (hleft : Path links start left stop) (hright : Path links start right stop)
    (hstop : stop ∉ left) (hstop' : stop ∉ right) : left = right := by
  induction left generalizing start right with
  | nil =>
      cases right with
      | nil => rfl
      | cons node right => exact absurd (hleft.1.symm.trans hright.1.1) (by simp_all)
  | cons node left ih =>
      cases right with
      | nil => exact absurd (hright.1.symm.trans hleft.1.1) (by simp_all)
      | cons node' right =>
          obtain rfl := hleft.1.1.symm.trans hright.1.1
          rw [ih hleft.2 hright.2 (by simp_all) (by simp_all)]

/-- The node after `start` on a path. -/
theorem Path.next_mem {start stop : Node} {nodes : List Node}
    (h : Path links start nodes stop) : links.next start ∈ stop :: nodes := by
  cases nodes with
  | nil => simp [h.1]
  | cons node nodes => simp [h.1.1]

/-- The node before `stop` on a path. -/
theorem Path.prev_mem {start stop : Node} {nodes : List Node}
    (h : Path links start nodes stop) : links.prev stop ∈ start :: nodes := by
  induction nodes generalizing start with
  | nil => simp [h.2]
  | cons node nodes ih => exact List.mem_cons_of_mem _ (ih h.2)

section Operations

variable [DecidableEq Node]

/-- `b->next->prev = b->prev; b->prev->next = b->next;` -/
def Links.unlink (links : Links Node) (b : Node) : Links Node where
  prev := Function.update links.prev (links.next b) (links.prev b)
  next := Function.update links.next (links.prev b) (links.next b)

/-- `b->next = head.next; b->prev = &head; head.next->prev = b; head.next = b;` -/
def Links.insertAfter (links : Links Node) (head b : Node) : Links Node where
  next := Function.update (Function.update links.next b (links.next head)) head b
  prev := Function.update (Function.update links.prev b head) (links.next head) b

theorem Path.unlink {start stop b : Node} {left right : List Node}
    (h : Path links start (left ++ b :: right) stop)
    (hnodup : (start :: (left ++ b :: right)).Nodup)
    (hstop : stop ∉ left ++ b :: right) :
    Path (links.unlink b) start (left ++ right) stop := by
  induction left generalizing start with
  | nil =>
      obtain ⟨⟨hforward, hback⟩, hrest⟩ := h
      cases right with
      | nil =>
          obtain ⟨hnext, -⟩ := hrest
          exact ⟨by simp [Links.unlink, hback, hnext], by simp [Links.unlink, hback, hnext]⟩
      | cons node right =>
          obtain ⟨⟨hnext, -⟩, htail⟩ := hrest
          simp only [List.nil_append, List.nodup_cons, List.mem_cons, not_or] at hnodup hstop
          refine ⟨⟨by simp [Links.unlink, hback, hnext], by simp [Links.unlink, hback, hnext]⟩,
            htail.frame ?_ ?_⟩
          · intro other hother
            refine Function.update_of_ne ?_ _ _
            rintro rfl
            rw [hback] at hother
            simp_all
          · intro other hother
            refine Function.update_of_ne ?_ _ _
            rintro rfl
            rw [hnext] at hother
            rcases List.mem_cons.mp hother with heq | hmem
            · exact hstop.2.1 heq.symm
            · exact hnodup.2.2.1 hmem
  | cons first left ih =>
      obtain ⟨⟨hforward, hback⟩, hrest⟩ := h
      obtain ⟨hleft, hright⟩ := path_append.mp hrest
      have hprev := hleft.prev_mem
      have hnext := hright.next_mem
      simp only [List.cons_append, List.nodup_cons, List.mem_cons, List.mem_append,
        not_or] at hnodup hstop
      refine ⟨⟨?_, ?_⟩, ih hrest ?_ ?_⟩
      · rw [← hforward]
        refine Function.update_of_ne ?_ _ _
        rintro heq
        rw [← heq] at hprev
        rcases List.mem_cons.mp hprev with heq | hmem
        · exact hnodup.1.1 heq
        · exact hnodup.1.2.1 hmem
      · rw [← hback]
        refine Function.update_of_ne ?_ _ _
        rintro heq
        rw [← heq] at hnext
        rcases List.mem_cons.mp hnext with heq | hmem
        · exact hstop.1 heq.symm
        · exact hnodup.2.1.2.2 hmem
      · simpa [not_or] using hnodup.2
      · simpa [not_or] using hstop.2

/-- Unlinking a node of a ring leaves the ring of the other nodes. -/
theorem Cycle.unlink {head b : Node} {left right : List Node}
    (h : Cycle links head (left ++ b :: right))
    (hnodup : (head :: (left ++ b :: right)).Nodup) :
    Cycle (links.unlink b) head (left ++ right) :=
  Path.unlink h hnodup (List.nodup_cons.mp hnodup).1

/-- Unlinking a node changes no ring that it is not on. -/
theorem Cycle.unlink_other {head head' b : Node} {nodes left right : List Node}
    (h : Cycle links head nodes) (hother : Cycle links head' (left ++ b :: right))
    (hdisjoint : ∀ node ∈ head :: nodes, node ∉ head' :: (left ++ b :: right)) :
    Cycle (links.unlink b) head nodes := by
  obtain ⟨hleft, hright⟩ := path_append.mp hother
  refine h.frame ?_ ?_
  · intro node hnode
    refine Function.update_of_ne ?_ _ _
    rintro rfl
    refine hdisjoint _ hnode ?_
    have := hleft.prev_mem
    simp only [List.mem_cons, List.mem_append] at this ⊢
    tauto
  · intro node hnode
    refine Function.update_of_ne ?_ _ _
    rintro rfl
    refine hdisjoint _ hnode ?_
    have := hright.next_mem
    simp only [List.mem_cons, List.mem_append] at this ⊢
    tauto

/-- A fresh node inserted after the head is the first node of the ring. -/
theorem Cycle.insertAfter {head b : Node} {nodes : List Node}
    (h : Cycle links head nodes) (hnodup : (head :: nodes).Nodup)
    (hfresh : b ∉ head :: nodes) :
    Cycle (links.insertAfter head b) head (b :: nodes) := by
  simp only [List.mem_cons, not_or] at hfresh
  obtain ⟨hhead, hfresh⟩ := hfresh
  cases nodes with
  | nil =>
      obtain ⟨hforward, -⟩ := h
      exact ⟨⟨by simp [Links.insertAfter], by simp [Links.insertAfter, hforward, hhead]⟩,
        by simp [Links.insertAfter, hforward, hhead],
        by simp [Links.insertAfter, hforward]⟩
  | cons first nodes =>
      obtain ⟨⟨hforward, hback⟩, hrest⟩ := h
      simp only [List.mem_cons, not_or] at hfresh
      simp only [List.nodup_cons, List.mem_cons, not_or] at hnodup
      refine ⟨⟨by simp [Links.insertAfter],
        by simp [Links.insertAfter, hforward, hfresh.1]⟩,
        ⟨by simp [Links.insertAfter, hforward, hhead],
          by simp [Links.insertAfter, hforward]⟩, hrest.frame ?_ ?_⟩
      · intro node hnode
        have hne : node ≠ head ∧ node ≠ b := by
          rcases List.mem_cons.mp hnode with rfl | hmem
          · exact ⟨Ne.symm hnodup.1.1, Ne.symm hfresh.1⟩
          · exact ⟨fun heq => hnodup.1.2 (heq ▸ hmem), fun heq => hfresh.2 (heq ▸ hmem)⟩
        simp [Links.insertAfter, hne.1, hne.2]
      · intro node hnode
        have hne : node ≠ first ∧ node ≠ b := by
          rcases List.mem_cons.mp hnode with rfl | hmem
          · exact ⟨hnodup.1.1, Ne.symm hhead⟩
          · exact ⟨fun heq => hnodup.2.1 (heq ▸ hmem), fun heq => hfresh.2 (heq ▸ hmem)⟩
        simp [Links.insertAfter, hforward, hne.1, hne.2]

/-- Inserting a node into a ring changes no ring apart from it. -/
theorem Cycle.insertAfter_other {head head' b : Node} {nodes nodes' : List Node}
    (h : Cycle links head nodes) (hother : Cycle links head' nodes')
    (hdisjoint : ∀ node ∈ head :: nodes, node ∉ head' :: nodes')
    (hfresh : b ∉ head :: nodes) :
    Cycle (links.insertAfter head' b) head nodes := by
  have hne : ∀ node ∈ head :: nodes,
      node ≠ head' ∧ node ≠ b ∧ node ≠ links.next head' := by
    intro node hnode
    refine ⟨?_, fun heq => hfresh (heq ▸ hnode), ?_⟩
    · rintro rfl
      exact hdisjoint _ hnode (by simp)
    · rintro rfl
      exact hdisjoint _ hnode hother.next_mem
  refine h.frame ?_ ?_
  · intro node hnode
    obtain ⟨hhead, hb, -⟩ := hne node hnode
    simp [Links.insertAfter, hhead, hb]
  · intro node hnode
    obtain ⟨-, hb, hnext⟩ := hne node hnode
    simp [Links.insertAfter, hb, hnext]

end Operations

end OperateSystem.Ring

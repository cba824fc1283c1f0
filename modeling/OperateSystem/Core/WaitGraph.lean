import Mathlib.Data.Fintype.Card
import Mathlib.Logic.Relation

/-!
# Waiting without cycles

A relation that says who waits for whom stays free of cycles as long as every new
edge leads to somebody who waits for nobody, or starts at somebody for whom nobody
waits.  Without cycles whoever waits does so, in the end, for somebody who does not.
-/

namespace OperateSystem.WaitGraph

variable {α : Type*} {waits waits' : α → α → Prop}

/-- Nobody waits, directly or through others, for themselves. -/
def Acyclic (waits : α → α → Prop) : Prop := ∀ a, ¬ Relation.TransGen waits a a

/-- A path between two points that somebody leads to and that lead on was there
before. -/
theorem transGen_of_grow
    (hgrow : ∀ a b, waits' a b → waits a b ∨ (∀ c, ¬ waits' b c) ∨ ∀ c, ¬ waits' c a)
    {a b : α} (hpath : Relation.TransGen waits' a b) (hin : ∃ c, waits' c a) :
    (∃ c, waits' b c) → Relation.TransGen waits a b := by
  obtain ⟨before, hbefore⟩ := hin
  induction hpath with
  | single hedge =>
      rintro ⟨after, hafter⟩
      rcases hgrow _ _ hedge with hold | hsink | hsource
      · exact .single hold
      · exact absurd hafter (hsink after)
      · exact absurd hbefore (hsource before)
  | tail hpath hedge ih =>
      rintro ⟨after, hafter⟩
      obtain ⟨last, -, hlast⟩ := Relation.TransGen.tail'_iff.mp hpath
      rcases hgrow _ _ hedge with hold | hsink | hsource
      · exact (ih ⟨_, hedge⟩).tail hold
      · exact absurd hafter (hsink after)
      · exact absurd hlast (hsource last)

theorem Acyclic.grow (h : Acyclic waits)
    (hgrow : ∀ a b, waits' a b → waits a b ∨ (∀ c, ¬ waits' b c) ∨ ∀ c, ¬ waits' c a) :
    Acyclic waits' := by
  intro a hcycle
  have hin : ∃ c, waits' c a := by
    obtain ⟨last, -, hlast⟩ := Relation.TransGen.tail'_iff.mp hcycle
    exact ⟨last, hlast⟩
  have hout : ∃ c, waits' a c := by
    obtain ⟨first, hfirst, -⟩ := Relation.TransGen.head'_iff.mp hcycle
    exact ⟨first, hfirst⟩
  exact h a (transGen_of_grow hgrow hcycle hin hout)

/-- Whoever waits among finitely many waits in the end for somebody who does not. -/
theorem Acyclic.exists_last [Finite α] (h : Acyclic waits) (a : α) :
    ∃ b, Relation.ReflTransGen waits a b ∧ ∀ c, ¬ waits b c := by
  let later : α → α → Prop := fun b a => Relation.TransGen waits a b
  have : IsTrans α later := ⟨fun _ _ _ hab hbc => hbc.trans hab⟩
  have : Std.Irrefl later := ⟨h⟩
  induction a using (Finite.wellFounded_of_trans_of_irrefl later).induction with
  | _ a ih =>
      by_cases hout : ∃ c, waits a c
      · obtain ⟨c, hc⟩ := hout
        obtain ⟨b, hcb, hb⟩ := ih c (.single hc)
        exact ⟨b, .head hc hcb, hb⟩
      · exact ⟨a, .refl, fun c hc => hout ⟨c, hc⟩⟩

/-- A cycle whose edges all lead down in another relation is one of that relation.  An edge of a
cycle comes after another edge and before a third. -/
theorem transGen_of_cycle {below : α → α → Prop} {a : α} (hcycle : Relation.TransGen waits a a)
    (hdown : ∀ z b c d, waits z b → waits b c → waits c d → Relation.TransGen waits a c →
      Relation.ReflTransGen waits c a → Relation.TransGen below b c) :
    Relation.TransGen below a a := by
  obtain ⟨first, hfirst, -⟩ := Relation.TransGen.head'_iff.mp hcycle
  obtain ⟨last, -, hlast⟩ := Relation.TransGen.tail'_iff.mp hcycle
  have hout : ∀ b, Relation.ReflTransGen waits b a → ∃ c, waits b c := by
    intro b hb
    rcases hb.cases_head with rfl | ⟨c, hc, -⟩
    · exact ⟨first, hfirst⟩
    · exact ⟨c, hc⟩
  -- By induction on the way from `a`, of which every point leads back to `a`.
  have hpath : ∀ b, Relation.TransGen waits a b → Relation.ReflTransGen waits b a →
      Relation.TransGen below a b := by
    intro b hab
    induction hab with
    | @single b hedge =>
        intro hback
        obtain ⟨c, hc⟩ := hout b hback
        exact hdown last a b c hlast hedge hc (.single hedge) hback
    | @tail b c hab hedge ih =>
        intro hback
        obtain ⟨d, hd⟩ := hout c hback
        obtain ⟨z, -, hz⟩ := Relation.TransGen.tail'_iff.mp hab
        exact (ih (.head hedge hback)).trans
          (hdown z b c d hz hedge hd (hab.tail hedge) hback)
  exact hpath a hcycle .refl

end OperateSystem.WaitGraph

import Mathlib.Data.Set.Basic

/-!
# Ledgers

A stock of things is divided among holders when everything in it has exactly one holder.
Two holders may settle what they hold between them, and each holder may keep its things in
places of its own.
-/

namespace OperateSystem.Ledger

variable {Thing Holder Place : Type*} {stock : Set Thing} {hold hold' : Holder → Set Thing}

/-- Everything in the stock has exactly one holder, and nothing else has one. -/
structure Divided (stock : Set Thing) (hold : Holder → Set Thing) : Prop where
  mem_iff : ∀ thing, thing ∈ stock ↔ ∃ holder, thing ∈ hold holder
  unique : ∀ thing holder holder', thing ∈ hold holder → thing ∈ hold holder' → holder = holder'

theorem Divided.existsUnique (h : Divided stock hold) {thing : Thing} (hmem : thing ∈ stock) :
    ∃! holder, thing ∈ hold holder := by
  obtain ⟨holder, hholder⟩ := (h.mem_iff thing).mp hmem
  exact ⟨holder, hholder, fun holder' hholder' => h.unique thing holder' holder hholder' hholder⟩

theorem Divided.congr (h : Divided stock hold) (heq : ∀ holder, hold' holder = hold holder) :
    Divided stock hold' := by
  rwa [funext heq]

/-- A stock that one holder has for itself. -/
theorem Divided.single (holder : Holder) (hall : hold holder = stock)
    (hnone : ∀ other, other ≠ holder → hold other = ∅) : Divided stock hold := by
  have hsole : ∀ thing other, thing ∈ hold other → other = holder := by
    intro thing other hmem
    by_contra hne
    rw [hnone other hne] at hmem
    exact Set.notMem_empty thing hmem
  constructor
  · intro thing
    constructor
    · intro hmem
      exact ⟨holder, by rwa [hall]⟩
    · rintro ⟨other, hmem⟩
      rw [hsole thing other hmem, hall] at hmem
      exact hmem
  · intro thing other other' hmem hmem'
    rw [hsole thing other hmem, hsole thing other' hmem']

/-- Two holders settle what they hold between them. -/
theorem Divided.transfer (h : Divided stock hold) {a b : Holder}
    (hboth : ∀ thing, (thing ∈ hold' a ∨ thing ∈ hold' b) ↔ (thing ∈ hold a ∨ thing ∈ hold b))
    (hapart : ∀ thing, thing ∈ hold' b → thing ∉ hold' a)
    (hothers : ∀ c, c ≠ a → c ≠ b → hold' c = hold c) : Divided stock hold' := by
  have hsplit : ∀ (hold : Holder → Set Thing) (thing : Thing), (∃ c, thing ∈ hold c) ↔
      (thing ∈ hold a ∨ thing ∈ hold b) ∨ ∃ c, (c ≠ a ∧ c ≠ b) ∧ thing ∈ hold c := by
    intro hold thing
    constructor
    · rintro ⟨c, hmem⟩
      by_cases hca : c = a
      · exact Or.inl (Or.inl (hca ▸ hmem))
      · by_cases hcb : c = b
        · exact Or.inl (Or.inr (hcb ▸ hmem))
        · exact Or.inr ⟨c, ⟨hca, hcb⟩, hmem⟩
    · rintro ((hmem | hmem) | ⟨c, -, hmem⟩)
      · exact ⟨a, hmem⟩
      · exact ⟨b, hmem⟩
      · exact ⟨c, hmem⟩
  -- What a third holder has, neither of the two has come to hold.
  have haway : ∀ thing c d, (c = a ∨ c = b) → ¬ (d = a ∨ d = b) → thing ∈ hold' c →
      thing ∉ hold' d := by
    intro thing c d hc hd hmem hmem'
    obtain ⟨hda, hdb⟩ := not_or.mp hd
    have htwo : thing ∈ hold' a ∨ thing ∈ hold' b := by
      rcases hc with rfl | rfl
      · exact Or.inl hmem
      · exact Or.inr hmem
    rw [hothers d hda hdb] at hmem'
    rcases (hboth thing).mp htwo with hmem₀ | hmem₀
    · exact hda (h.unique thing d a hmem' hmem₀)
    · exact hdb (h.unique thing d b hmem' hmem₀)
  constructor
  · intro thing
    rw [h.mem_iff, hsplit hold, hsplit hold', hboth]
    apply or_congr_right
    apply exists_congr
    intro c
    apply and_congr_right
    rintro ⟨hca, hcb⟩
    rw [hothers c hca hcb]
  · intro thing c d hc hd
    by_cases hctwo : c = a ∨ c = b
    · by_cases hdtwo : d = a ∨ d = b
      · rcases hctwo with rfl | rfl
        · rcases hdtwo with rfl | rfl
          · rfl
          · exact absurd hc (hapart thing hd)
        · rcases hdtwo with rfl | rfl
          · exact absurd hd (hapart thing hc)
          · rfl
      · exact absurd hd (haway thing c d hctwo hdtwo hc)
    · by_cases hdtwo : d = a ∨ d = b
      · exact absurd hc (haway thing d c hdtwo hctwo hd)
      · obtain ⟨hca, hcb⟩ := not_or.mp hctwo
        obtain ⟨hda, hdb⟩ := not_or.mp hdtwo
        rw [hothers c hca hcb] at hc
        rw [hothers d hda hdb] at hd
        exact h.unique thing c d hc hd

/-- When every holder keeps its things in places of its own, one in each place, the stock is
divided among the places. -/
theorem Divided.refine (h : Divided stock hold) {place : Place → Set Thing}
    (holderOf : Place → Holder)
    (hmem : ∀ holder thing, thing ∈ hold holder ↔ ∃ p, holderOf p = holder ∧ thing ∈ place p)
    (hsole : ∀ p p' thing, holderOf p = holderOf p' → thing ∈ place p → thing ∈ place p' → p = p') :
    Divided stock place := by
  constructor
  · intro thing
    rw [h.mem_iff]
    constructor
    · rintro ⟨holder, hthing⟩
      obtain ⟨p, -, hp⟩ := (hmem holder thing).mp hthing
      exact ⟨p, hp⟩
    · rintro ⟨p, hp⟩
      exact ⟨holderOf p, (hmem _ thing).mpr ⟨p, rfl, hp⟩⟩
  · intro thing p p' hp hp'
    apply hsole p p' thing _ hp hp'
    apply h.unique thing
    · exact (hmem _ thing).mpr ⟨p, rfl, hp⟩
    · exact (hmem _ thing).mpr ⟨p', rfl, hp'⟩

end OperateSystem.Ledger

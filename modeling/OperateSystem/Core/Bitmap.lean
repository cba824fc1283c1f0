import Mathlib.Data.Finset.Card
import Mathlib.Data.Finset.Range
import Mathlib.Tactic.Common

/-!
# First-fit allocation in a bitmap

A bitmap is a list of machine words; bit `i` is bit `i % w` of word `i / w`.
`claimBit` scans the words from the front, sets the first clear bit and returns
its index.  `Claimed` says what a successful scan did.
-/

namespace OperateSystem.Bitmap

variable {w : ℕ}

/-- Bit `i` of the bitmap; bits past its end read as clear. -/
def bit (map : List (BitVec w)) (i : ℕ) : Bool :=
  (map.getD (i / w) 0).getLsbD (i % w)

/-- Scan one word from bit `cursor` on, with `left` bits to go: set the first
clear bit and return its position. -/
def claimInWord (word : BitVec w) : (left : ℕ) → (cursor : ℕ) → Option (ℕ × BitVec w)
  | 0, _ => none
  | left + 1, cursor =>
      if word &&& (1#w <<< cursor) = 0 then some (cursor, word ||| (1#w <<< cursor))
      else claimInWord word left (cursor + 1)

/-- Scan the words in order; `cursor` counts the bits passed so far. -/
def claimBit : List (BitVec w) → (cursor : ℕ) → Option (ℕ × List (BitVec w))
  | [], _ => none
  | word :: words, cursor =>
      match claimInWord word w 0 with
      | some (found, word') => some (cursor + found, word' :: words)
      | none =>
          match claimBit words (cursor + w) with
          | some (found, words') => some (found, word :: words')
          | none => none

/-- The bits that are still clear. -/
def clearBits (map : List (BitVec w)) : Finset ℕ :=
  (Finset.range (w * map.length)).filter fun i => bit map i = false

/-- The bits that are set. -/
def setBits (map : List (BitVec w)) : Finset ℕ :=
  (Finset.range (w * map.length)).filter fun i => bit map i = true

/-- `map'` is `map` with its first clear bit, bit `c`, set. -/
structure Claimed (map : List (BitVec w)) (c : ℕ) (map' : List (BitVec w)) : Prop where
  lt : c < w * map.length
  clear : bit map c = false
  least : ∀ i, i < c → bit map i = true
  length_eq : map'.length = map.length
  bit_eq : ∀ i, bit map' i = (bit map i || decide (i = c))

theorem and_one_shiftLeft_eq_zero_iff (word : BitVec w) {cursor : ℕ} (hlt : cursor < w) :
    word &&& (1#w <<< cursor) = 0 ↔ word.getLsbD cursor = false := by
  rw [← BitVec.twoPow_eq, BitVec.and_twoPow]
  cases hbit : word.getLsbD cursor with
  | false => simp
  | true =>
      have hne : BitVec.twoPow w cursor ≠ 0#w := by
        intro hzero
        have hget := congrArg (fun v => v.getLsbD cursor) hzero
        simp [hlt] at hget
      simpa using hne

theorem getLsbD_or_one_shiftLeft (word : BitVec w) {cursor : ℕ} (hlt : cursor < w) (i : ℕ) :
    (word ||| (1#w <<< cursor)).getLsbD i = (word.getLsbD i || decide (i = cursor)) := by
  rw [← BitVec.twoPow_eq, BitVec.getLsbD_or, BitVec.getLsbD_twoPow]
  simp [hlt, eq_comm]

/-- The scan of one word finds its first clear bit at or after `cursor`. -/
theorem claimInWord_some {word word' : BitVec w} {left cursor found : ℕ}
    (hbound : cursor + left = w) (h : claimInWord word left cursor = some (found, word')) :
    cursor ≤ found ∧ found < w ∧ word.getLsbD found = false ∧
      (∀ i, cursor ≤ i → i < found → word.getLsbD i = true) ∧
      ∀ i, word'.getLsbD i = (word.getLsbD i || decide (i = found)) := by
  induction left generalizing cursor with
  | zero => simp [claimInWord] at h
  | succ left ih =>
      have hlt : cursor < w := by omega
      rw [claimInWord] at h
      split at h
      · rename_i hzero
        have hpair := Prod.mk.inj (Option.some.inj h)
        obtain ⟨rfl, rfl⟩ := hpair
        refine ⟨le_refl _, hlt, (and_one_shiftLeft_eq_zero_iff word hlt).mp hzero, ?_,
          getLsbD_or_one_shiftLeft word hlt⟩
        intro i hge hlt'
        omega
      · rename_i hset
        obtain ⟨hle, hfound, hclear, hleast, hbits⟩ := ih (by omega) h
        refine ⟨by omega, hfound, hclear, ?_, hbits⟩
        intro i hge hlt'
        by_cases hi : i = cursor
        · rw [and_one_shiftLeft_eq_zero_iff word hlt] at hset
          simpa [hi] using hset
        · exact hleast i (by omega) hlt'

/-- A failed scan of one word has seen only set bits. -/
theorem claimInWord_none {word : BitVec w} {left cursor : ℕ}
    (hbound : cursor + left = w) (h : claimInWord word left cursor = none) :
    ∀ i, cursor ≤ i → i < w → word.getLsbD i = true := by
  induction left generalizing cursor with
  | zero =>
      intro i hge hlt
      omega
  | succ left ih =>
      have hlt : cursor < w := by omega
      rw [claimInWord] at h
      split at h
      · simp at h
      · rename_i hset
        intro i hge hlt'
        by_cases hi : i = cursor
        · rw [and_one_shiftLeft_eq_zero_iff word hlt] at hset
          simpa [hi] using hset
        · exact ih (by omega) h i (by omega) hlt'

section Cons

variable (word : BitVec w) (words : List (BitVec w))

theorem bit_cons_of_lt {i : ℕ} (hlt : i < w) : bit (word :: words) i = word.getLsbD i := by
  simp [bit, Nat.div_eq_of_lt hlt, Nat.mod_eq_of_lt hlt]

theorem bit_cons_add (hw : 0 < w) (i : ℕ) : bit (word :: words) (w + i) = bit words i := by
  have hdiv : (w + i) / w = i / w + 1 := by
    rw [Nat.add_comm, Nat.add_div_right i hw]
  simp [bit, hdiv]

end Cons

/-- The cursor a scan starts with only shifts the index it returns. -/
theorem claimBit_cursor (map : List (BitVec w)) (cursor : ℕ) :
    claimBit map cursor
      = (claimBit map 0).map fun claim => (cursor + claim.1, claim.2) := by
  induction map generalizing cursor with
  | nil => rfl
  | cons word words ih =>
      simp only [claimBit]
      cases hword : claimInWord word w 0 with
      | some found => simp
      | none =>
          rw [ih (cursor + w), ih (0 + w)]
          cases claimBit words 0 with
          | none => rfl
          | some claim => simp [Nat.add_assoc]

/-- First fit: a successful scan sets the first clear bit and nothing else. -/
theorem claimBit_some (hw : 0 < w) {map map' : List (BitVec w)} {c : ℕ}
    (h : claimBit map 0 = some (c, map')) : Claimed map c map' := by
  induction map generalizing c map' with
  | nil => simp [claimBit] at h
  | cons word words ih =>
      simp only [claimBit] at h
      cases hword : claimInWord word w 0 with
      | some found =>
          obtain ⟨found, word'⟩ := found
          simp only [hword, Nat.zero_add, Option.some.injEq, Prod.mk.injEq] at h
          obtain ⟨rfl, rfl⟩ := h
          obtain ⟨-, hlt, hclear, hleast, hbits⟩ := claimInWord_some (by omega) hword
          have hle : w ≤ w * (word :: words).length := by
            simpa using Nat.le_mul_of_pos_right w (Nat.succ_pos words.length)
          refine ⟨by omega, ?_, ?_, by simp, ?_⟩
          · rw [bit_cons_of_lt word words hlt, hclear]
          · intro i hi
            rw [bit_cons_of_lt word words (by omega)]
            exact hleast i (Nat.zero_le i) hi
          · intro i
            by_cases hi : i < w
            · rw [bit_cons_of_lt _ _ hi, bit_cons_of_lt _ _ hi, hbits]
            · obtain ⟨j, rfl⟩ := Nat.exists_eq_add_of_le (Nat.le_of_not_lt hi)
              have hne : w + j ≠ found := by omega
              simp [bit_cons_add _ _ hw, hne]
      | none =>
          rw [hword, claimBit_cursor words (0 + w)] at h
          cases hwords : claimBit words 0 with
          | none => simp [hwords] at h
          | some claim =>
              obtain ⟨found, words'⟩ := claim
              simp only [hwords, Option.map_some, Nat.zero_add, Option.some.injEq,
                Prod.mk.injEq] at h
              obtain ⟨rfl, rfl⟩ := h
              have hclaim := ih hwords
              have hfull := claimInWord_none (by omega) hword
              refine ⟨?_, ?_, ?_, ?_, ?_⟩
              · have hlt := hclaim.lt
                rw [List.length_cons, Nat.mul_succ]
                omega
              · rw [bit_cons_add _ _ hw, hclaim.clear]
              · intro i hi
                by_cases hlt : i < w
                · rw [bit_cons_of_lt _ _ hlt, hfull i (Nat.zero_le i) hlt]
                · obtain ⟨j, rfl⟩ := Nat.exists_eq_add_of_le (Nat.le_of_not_lt hlt)
                  rw [bit_cons_add _ _ hw]
                  exact hclaim.least j (by omega)
              · simp [hclaim.length_eq]
              · intro i
                by_cases hlt : i < w
                · have hne : i ≠ w + found := by omega
                  simp [bit_cons_of_lt _ _ hlt, hne]
                · obtain ⟨j, rfl⟩ := Nat.exists_eq_add_of_le (Nat.le_of_not_lt hlt)
                  simp [bit_cons_add _ _ hw, hclaim.bit_eq]

/-- A scan fails only when every bit is set. -/
theorem claimBit_none (hw : 0 < w) {map : List (BitVec w)} (h : claimBit map 0 = none) :
    ∀ i, i < w * map.length → bit map i = true := by
  induction map with
  | nil =>
      intro i hi
      simp at hi
  | cons word words ih =>
      simp only [claimBit] at h
      cases hword : claimInWord word w 0 with
      | some found => simp [hword] at h
      | none =>
          rw [hword, claimBit_cursor words (0 + w)] at h
          cases hwords : claimBit words 0 with
          | some claim => simp [hwords] at h
          | none =>
              intro i hi
              by_cases hlt : i < w
              · rw [bit_cons_of_lt _ _ hlt]
                exact claimInWord_none (by omega) hword i (Nat.zero_le i) hlt
              · obtain ⟨j, rfl⟩ := Nat.exists_eq_add_of_le (Nat.le_of_not_lt hlt)
                rw [bit_cons_add _ _ hw]
                rw [List.length_cons, Nat.mul_succ] at hi
                exact ih hwords j (by omega)

theorem mem_clearBits {map : List (BitVec w)} {i : ℕ} :
    i ∈ clearBits map ↔ i < w * map.length ∧ bit map i = false := by
  simp [clearBits]

theorem mem_setBits {map : List (BitVec w)} {i : ℕ} :
    i ∈ setBits map ↔ i < w * map.length ∧ bit map i = true := by
  simp [setBits]

theorem card_setBits_le (map : List (BitVec w)) : (setBits map).card ≤ w * map.length := by
  have hle := Finset.card_filter_le (Finset.range (w * map.length)) fun i => bit map i = true
  rwa [Finset.card_range] at hle

/-- Every claim sets one more bit. -/
theorem Claimed.card_setBits {map map' : List (BitVec w)} {c : ℕ} (h : Claimed map c map') :
    (setBits map').card = (setBits map).card + 1 := by
  have hnot : c ∉ setBits map := by
    rw [mem_setBits, h.clear]
    simp
  have hinsert : setBits map' = insert c (setBits map) := by
    ext i
    rw [Finset.mem_insert, mem_setBits, mem_setBits, h.length_eq, h.bit_eq]
    simp only [Bool.or_eq_true, decide_eq_true_eq]
    have hlt := h.lt
    constructor
    · rintro ⟨hi, hset | rfl⟩
      · exact Or.inr ⟨hi, hset⟩
      · exact Or.inl rfl
    · rintro (rfl | ⟨hi, hset⟩)
      · exact ⟨hlt, Or.inr rfl⟩
      · exact ⟨hi, Or.inl hset⟩
  rw [hinsert, Finset.card_insert_of_notMem hnot]

/-- While a clear bit is left, a scan succeeds. -/
theorem exists_claimBit (hw : 0 < w) {map : List (BitVec w)}
    (hclear : 0 < (clearBits map).card) :
    ∃ c map', claimBit map 0 = some (c, map') ∧ Claimed map c map' := by
  cases h : claimBit map 0 with
  | some claim => exact ⟨claim.1, claim.2, rfl, claimBit_some hw h⟩
  | none =>
      obtain ⟨i, hi⟩ := Finset.card_pos.mp hclear
      rw [mem_clearBits] at hi
      have hset := claimBit_none hw h i hi.1
      rw [hi.2] at hset
      exact absurd hset (by simp)

/-- The clear bits in the order in which scans claim them. -/
def clearList (map : List (BitVec w)) : List ℕ :=
  (List.range (w * map.length)).filter fun i => bit map i = false

/-- A claim takes the first of them. -/
theorem Claimed.clearList_eq {map map' : List (BitVec w)} {c : ℕ} (h : Claimed map c map') :
    clearList map = c :: clearList map' := by
  have hbefore : ∀ map'' : List (BitVec w), (∀ i, i < c → bit map'' i = true) →
      (List.range c).filter (fun i => decide (bit map'' i = false)) = [] := by
    intro map'' hset
    rw [List.filter_eq_nil_iff]
    intro i hi
    simp [hset i (List.mem_range.mp hi)]
  have hsplit : List.range (w * map.length)
      = List.range c ++ c :: (List.range (w * map.length - (c + 1))).map (c + 1 + ·) := by
    have hlt := h.lt
    calc List.range (w * map.length)
        = List.range (c + 1 + (w * map.length - (c + 1))) := by rw [Nat.add_sub_of_le hlt]
      _ = List.range (c + 1) ++ (List.range (w * map.length - (c + 1))).map (c + 1 + ·) :=
          List.range_add
      _ = List.range c ++ c :: (List.range (w * map.length - (c + 1))).map (c + 1 + ·) := by
          rw [List.range_succ, List.append_assoc, List.singleton_append]
  have hself : bit map' c = true := by
    rw [h.bit_eq]
    simp
  have hset : ∀ i, i < c → bit map' i = true := by
    intro i hi
    rw [h.bit_eq, h.least i hi]
    rfl
  rw [clearList, clearList, h.length_eq, hsplit, List.filter_append, List.filter_append,
    hbefore map h.least, hbefore map' hset, List.nil_append, List.nil_append,
    List.filter_cons_of_pos (by simp [h.clear]), List.filter_cons_of_neg (by simp [hself])]
  congr 1
  apply List.filter_congr
  intro i hi
  obtain ⟨k, -, rfl⟩ := List.mem_map.mp hi
  have hne : c + 1 + k ≠ c := by omega
  rw [h.bit_eq]
  simp [hne]

/-- While there is one, a scan claims the first. -/
theorem exists_claimBit_of_clearList (hw : 0 < w) {map : List (BitVec w)} {c : ℕ} {rest : List ℕ}
    (h : clearList map = c :: rest) :
    ∃ map', claimBit map 0 = some (c, map') ∧ clearList map' = rest := by
  have hmem : c ∈ clearList map := by
    rw [h]
    exact List.mem_cons_self
  have hclear : c ∈ clearBits map := by
    rw [clearList, List.mem_filter, List.mem_range, decide_eq_true_iff] at hmem
    exact mem_clearBits.mpr hmem
  obtain ⟨c', map', hclaim, hclaimed⟩ := exists_claimBit hw (Finset.card_pos.mpr ⟨c, hclear⟩)
  have hsame := hclaimed.clearList_eq.symm.trans h
  obtain ⟨rfl, hrest⟩ := List.cons.inj hsame
  exact ⟨map', hclaim, hrest⟩

end OperateSystem.Bitmap

import OperateSystem.Core.ByteStore
import OperateSystem.Vm.Mapping

/-!
# User memory byte by byte

A page is a store of 4096 bytes, and `memmove` to a page writes a range of them.
`walkaddr` finds the page of an address in a page table, if the user may use it.
-/

namespace OperateSystem.Vm

open OperateSystem.PointerTree OperateSystem.ByteStore

section Bytes

variable {m : Machine} {page : ℕ}

theorem extract_setByte (word : Word) (byte : BitVec 8) {k j : ℕ} (hk : k < 8) (hj : j < 8) :
    (setByte word k byte).extractLsb' (8 * j) 8
      = if j = k then byte else word.extractLsb' (8 * j) 8 := by
  apply BitVec.eq_of_getLsbD_eq
  intro i hi
  have hi' : i < 8 := hi
  have hmask : ∀ n, (0xFF : Word).getLsbD n = decide (n < 8) := by
    intro n
    rw [show (0xFF : Word) = (BitVec.allOnes 8).setWidth 64 by decide, BitVec.getLsbD_setWidth,
      BitVec.getLsbD_allOnes]
    by_cases hn : n < 8
    · simp [hn, show n < 64 by omega]
    · simp [hn]
  simp only [setByte, BitVec.getLsbD_extractLsb', BitVec.getLsbD_or, BitVec.getLsbD_and,
    BitVec.getLsbD_not, BitVec.getLsbD_shiftLeft, BitVec.getLsbD_setWidth, hmask]
  by_cases heq : j = k
  · subst heq
    rw [if_pos rfl]
    simp [hi', show 8 * j + i < 64 by omega, show i < 64 by omega]
  · rw [if_neg heq, BitVec.getLsbD_extractLsb']
    by_cases hlt : 8 * j + i < 8 * k
    · simp [hi', hlt, show 8 * j + i < 64 by omega]
    · have hout : ¬ 8 * j + i - 8 * k < 8 := by omega
      have hbyte : byte.getLsbD (8 * j + i - 8 * k) = false :=
        BitVec.getLsbD_of_ge byte _ (by omega)
      simp [hi', hlt, hout, hbyte, show 8 * j + i < 64 by omega]

theorem write_of_ne {other : ℕ} (hne : other ≠ page) (ofs : ℕ) (bytes : List (BitVec 8)) :
    (m.write page ofs bytes).mem other = m.mem other := by
  induction bytes generalizing m ofs with
  | nil => rfl
  | cons byte bytes ih =>
      rw [Machine.write, ih]
      exact Function.update_of_ne hne _ _

theorem write_free (ofs : ℕ) (bytes : List (BitVec 8)) :
    (m.write page ofs bytes).free = m.free := by
  induction bytes generalizing m ofs with
  | nil => rfl
  | cons byte bytes ih =>
      rw [Machine.write, ih]
      rfl

/-- Storing a byte of a word is writing one byte of the page. -/
theorem byteAt_store {ofs addr : ℕ} (hofs : ofs < 4096) (haddr : addr < 4096) (byte : BitVec 8) :
    byteAt ((m.store page ⟨ofs / 8 % 512, Nat.mod_lt _ (by decide)⟩
        (setByte (m.mem page ⟨ofs / 8 % 512, Nat.mod_lt _ (by decide)⟩) (ofs % 8) byte)).mem
          page) addr
      = overwrite (byteAt (m.mem page)) ofs [byte] addr := by
  have hword : ∀ word, (m.store page ⟨ofs / 8 % 512, Nat.mod_lt _ (by decide)⟩ word).mem page
      = Function.update (m.mem page) ⟨ofs / 8 % 512, Nat.mod_lt _ (by decide)⟩ word :=
    fun word => Function.update_self _ _ _
  rw [hword, byteAt, Function.update_apply]
  by_cases hsame : addr / 8 = ofs / 8
  · simp only [hsame, if_true]
    rw [extract_setByte _ _ (Nat.mod_lt _ (by decide)) (Nat.mod_lt _ (by decide))]
    by_cases heq : addr = ofs
    · subst heq
      simp [overwrite]
    · rw [if_neg (by omega)]
      rcases Nat.lt_or_gt_of_ne heq with hlt | hgt
      · rw [overwrite_of_lt _ _ _ hlt, byteAt]
        simp only [hsame]
      · rw [overwrite_of_ge _ _ _ hgt, byteAt]
        simp only [hsame]
  · rw [if_neg (by rw [Fin.mk.injEq]; omega), ← byteAt]
    rcases Nat.lt_or_gt_of_ne (show addr ≠ ofs by rintro rfl; exact hsame rfl) with hlt | hgt
    · rw [overwrite_of_lt _ _ _ hlt]
    · rw [overwrite_of_ge _ _ _ hgt]

/-- `memmove` to a page writes its bytes. -/
theorem byteAt_write {ofs addr : ℕ} {bytes : List (BitVec 8)} (hend : ofs + bytes.length ≤ 4096)
    (haddr : addr < 4096) : byteAt ((m.write page ofs bytes).mem page) addr
      = overwrite (byteAt (m.mem page)) ofs bytes addr := by
  induction bytes generalizing m ofs with
  | nil => rw [Machine.write, overwrite_nil]
  | cons byte bytes ih =>
      rw [List.length_cons] at hend
      rw [Machine.write, ih (by omega), ← List.singleton_append, overwrite_append]
      simp only [overwrite, List.length_singleton]
      rw [byteAt_store (by omega) haddr]
      rfl

end Bytes

section Walkaddr

variable {m : Machine} {root vpn : ℕ}

theorem walkaddr_high {va : ℕ} (hva : maxVa ≤ va) : walkaddr m root va = .ok none := if_pos hva

/-- `walkaddr` finds the pages that are mapped for the user. -/
theorem walkaddr_eq {ofs : ℕ} (hvpn : vpn < 2 ^ 26) (hofs : ofs < 4096) :
    walkaddr m root (4096 * vpn + ofs)
      = .ok (if Valid (entry m.mem root vpn) ∧ entry m.mem root vpn &&& pteU ≠ 0 ∧
            pte2pa (entry m.mem root vpn) ≠ 0
          then some (pte2pa (entry m.mem root vpn)) else none) := by
  have hlt : ¬ maxVa ≤ 4096 * vpn + ofs := by
    rw [maxVa]
    omega
  rw [walkaddr, if_neg hlt, find_eq m root hvpn hofs]
  cases hnode : node next m.mem root (pathOf vpn) with
  | none =>
      rw [entry_of_none hnode, if_neg (fun h => not_valid_zero h.1)]
      rfl
  | some table =>
      rw [entry_of_node hnode]
      simp only [Option.map_some, ok_bind]
      by_cases hvalid : Valid (m.mem table (idx 0 vpn))
      · by_cases huser : m.mem table (idx 0 vpn) &&& pteU = 0
        · simp only [hvalid, not_true, if_false, huser, if_true, ne_eq, false_and, and_false]
          rfl
        · simp only [hvalid, not_true, if_false, huser, ne_eq, not_false_eq_true, true_and, ite_not]
          rfl
      · simp only [hvalid, not_false_eq_true, if_true, false_and, if_false]
        rfl

end Walkaddr

section Copy

variable {m : Machine} {root page base ofs : ℕ}

theorem pgRoundDown_page (hbase : base % 4096 = 0) (hofs : ofs < 4096) :
    pgRoundDown (base + ofs) = base := by
  rw [pgRoundDown, pgSize]
  omega

/-- `copyout` within a page. -/
theorem copyout_page (hbase : base % 4096 = 0) (hwalk : walkaddr m root base = .ok (some page))
    {src : List (BitVec 8)} (hsrc : src ≠ []) (hend : ofs + src.length ≤ 4096) :
    copyout m root (base + ofs) src = .ok (true, m.write page ofs src) := by
  obtain ⟨fuel, hfuel⟩ := Nat.exists_eq_succ_of_ne_zero fun hzero =>
    hsrc (List.length_eq_zero_iff.mp hzero)
  have hn : min (pgSize - ofs) src.length = src.length := by
    rw [pgSize]
    omega
  rw [copyout, hfuel, copyoutLoop, if_neg hsrc]
  simp only [pgRoundDown_page hbase (show ofs < 4096 by omega), hwalk, ok_bind,
    Nat.add_sub_cancel_left, hn, List.drop_length, List.take_length]
  cases fuel <;> rfl

/-- `copyin` within a page. -/
theorem copyin_page (hbase : base % 4096 = 0) (hwalk : walkaddr m root base = .ok (some page))
    {len : ℕ} (hend : ofs + len ≤ 4096) :
    copyin m root (base + ofs) len = .ok (some (m.read page ofs len)) := by
  cases len with
  | zero => rfl
  | succ len =>
      have hn : min (pgSize - ofs) (len + 1) = len + 1 := by
        rw [pgSize]
        omega
      have hrest : ∀ va, copyinLoop m root len va 0 = .ok (some []) := by
        intro va
        cases len <;> rfl
      rw [copyin, copyinLoop, if_neg (Nat.succ_ne_zero len)]
      simp only [pgRoundDown_page hbase (show ofs < 4096 by omega), hwalk, ok_bind,
        Nat.add_sub_cancel_left, hn, Nat.sub_self, hrest, List.append_nil]
      rfl

end Copy

end OperateSystem.Vm

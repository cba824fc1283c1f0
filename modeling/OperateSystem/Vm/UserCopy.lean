import OperateSystem.Core.Translation
import OperateSystem.Vm.Access

/-!
# Copies between the kernel and the user

`copyout`, `copyin` and `copyinstr` go through a range of virtual addresses page by page
and look every page up with `walkaddr`.  As long as the pages of the user are not tables of
the page table itself, the lookup stays the same under the writes, and a copy is a read or
a write of the range through the translation of the page table.
-/

namespace OperateSystem.Vm

open OperateSystem.PointerTree OperateSystem.Translation

/-- The user may use a virtual page. -/
def Open (m : Machine) (root vpn : ℕ) : Prop :=
  Valid (entry m.mem root vpn) ∧ entry m.mem root vpn &&& pteU ≠ 0

/-- The byte that a page table maps at an address. -/
def mappedByte (m : Machine) (root va : ℕ) : BitVec 8 :=
  byteAt (m.mem (pte2pa (entry m.mem root (va / pgSize)))) (va % pgSize)

/-- The physical byte that a page table maps at an address: its page and its place there. -/
def cellAt (m : Machine) (root va : ℕ) : ℕ × Fin pgSize :=
  (pte2pa (entry m.mem root (va / pgSize)), ⟨va % pgSize, Nat.mod_lt _ (by decide)⟩)

/-- Memory byte by byte. -/
def Machine.bytes (m : Machine) (cell : ℕ × Fin pgSize) : BitVec 8 :=
  byteAt (m.mem cell.1) cell.2

/-- Every page that meets `[va, va + len)` is below `MAXVA` and mapped for the user. -/
def UserRange (m : Machine) (root va len : ℕ) : Prop :=
  ∀ a, va ≤ a → a < va + len → a < maxVa ∧ Open m root (a / pgSize)

/-- The pages that the user may use are neither the page at the address 0 nor tables of the
page table. -/
structure UserPages (m : Machine) (root : ℕ) : Prop where
  nonnull : ∀ vpn, vpn < 2 ^ 26 → Open m root vpn → pte2pa (entry m.mem root vpn) ≠ 0
  apart : ∀ vpn, vpn < 2 ^ 26 → Open m root vpn → pte2pa (entry m.mem root vpn) ∉ tables m.mem root

/-- Different pages that the user may use are different physical pages. -/
def DistinctPages (m : Machine) (root : ℕ) : Prop :=
  ∀ vpn vpn', vpn < 2 ^ 26 → vpn' < 2 ^ 26 → Open m root vpn → Open m root vpn' →
    pte2pa (entry m.mem root vpn) = pte2pa (entry m.mem root vpn') → vpn = vpn'

section Ranges

variable {m : Machine} {root va : ℕ}

theorem userRange_zero (m : Machine) (root va : ℕ) : UserRange m root va 0 := by
  intro a hlo hhi
  omega

theorem userRange_add (n k : ℕ) :
    UserRange m root va (n + k) ↔ UserRange m root va n ∧ UserRange m root (va + n) k := by
  constructor
  · intro h
    exact ⟨fun a hlo hhi => h a hlo (by omega), fun a hlo hhi => h a (by omega) (by omega)⟩
  · rintro ⟨hfirst, hrest⟩ a hlo hhi
    by_cases hlt : a < va + n
    · exact hfirst a hlo hlt
    · exact hrest a (by omega) (by omega)

/-- A range within one page. -/
theorem userRange_page {n : ℕ} (hpos : 0 < n) (hend : va % 4096 + n ≤ 4096) :
    UserRange m root va n ↔ va < maxVa ∧ Open m root (va / 4096) := by
  constructor
  · exact fun h => h va (le_refl va) (by omega)
  · rintro ⟨hlt, hopen⟩ a hlo hhi
    have hpage : a / pgSize = va / 4096 := by
      rw [pgSize]
      omega
    rw [hpage]
    rw [maxVa] at hlt ⊢
    exact ⟨by omega, hopen⟩

theorem UserRange.mono {n k : ℕ} (h : UserRange m root va n) (hle : k ≤ n) :
    UserRange m root va k :=
  fun a hlo hhi => h a hlo (by omega)

/-- `walkaddr` at the start of the page of an address. -/
theorem walkaddr_user (h : UserPages m root) (va : ℕ) :
    (va < maxVa ∧ Open m root (va / 4096) ∧
      walkaddr m root (4096 * (va / 4096)) = .ok (some (pte2pa (entry m.mem root (va / 4096))))) ∨
    (¬ (va < maxVa ∧ Open m root (va / 4096)) ∧
      walkaddr m root (4096 * (va / 4096)) = .ok none) := by
  by_cases hlt : va < maxVa
  · have hvpn : va / 4096 < 2 ^ 26 := by
      rw [maxVa] at hlt
      omega
    rw [← Nat.add_zero (4096 * (va / 4096)), walkaddr_eq hvpn (by decide)]
    by_cases hopen : Open m root (va / 4096)
    · left
      rw [if_pos ⟨hopen.1, hopen.2, h.nonnull _ hvpn hopen⟩]
      exact ⟨hlt, hopen, rfl⟩
    · right
      rw [if_neg fun hall => hopen ⟨hall.1, hall.2.1⟩]
      exact ⟨fun hboth => hopen hboth.2, rfl⟩
  · right
    refine ⟨fun hboth => hlt hboth.1, walkaddr_high ?_⟩
    rw [maxVa] at hlt ⊢
    omega

end Ranges

section Copyin

variable {m : Machine} {root : ℕ}

theorem mappedByte_eq (m : Machine) (root va : ℕ) :
    mappedByte m root va = m.bytes (cellAt m root va) := rfl

/-- The bytes of one page. -/
theorem read_eq_mapped {srcva n : ℕ} (hend : srcva % 4096 + n ≤ 4096) :
    m.read (pte2pa (entry m.mem root (srcva / 4096))) (srcva % 4096) n
      = readAt (cellAt m root) m.bytes srcva n := by
  apply List.ext_getElem
  · simp [Machine.read]
  · intro k hk hk'
    rw [Machine.read, List.length_map, List.length_range'] at hk
    simp only [Machine.read, readAt, List.getElem_map, List.getElem_range', Nat.one_mul,
      ← mappedByte_eq, mappedByte, pgSize]
    rw [show (srcva + k) / 4096 = srcva / 4096 by omega,
      show (srcva + k) % 4096 = srcva % 4096 + k by omega]

/-- How far a turn of one of the loops gets: to the end of the page or of the range. -/
theorem turn_length (va : ℕ) {len : ℕ} (hlen : 0 < len) :
    0 < min (pgSize - va % 4096) len ∧ min (pgSize - va % 4096) len ≤ len ∧
      va % 4096 + min (pgSize - va % 4096) len ≤ 4096 ∧
      (min (pgSize - va % 4096) len < len →
        va + min (pgSize - va % 4096) len = 4096 * (va / 4096) + pgSize) := by
  rw [pgSize]
  omega

theorem pgRoundDown_eq (va : ℕ) :
    pgRoundDown va = 4096 * (va / 4096) ∧ va - 4096 * (va / 4096) = va % 4096 := by
  rw [pgRoundDown, pgSize]
  omega

/-- `copyin` delivers the bytes of the range if the user may use all of it. -/
theorem copyinLoop_spec (h : UserPages m root) {fuel srcva len : ℕ} (hfuel : len ≤ fuel) :
    (UserRange m root srcva len ∧ copyinLoop m root fuel srcva len
      = .ok (some (readAt (cellAt m root) m.bytes srcva len))) ∨
    (¬ UserRange m root srcva len ∧ copyinLoop m root fuel srcva len = .ok none) := by
  induction fuel generalizing srcva len with
  | zero =>
      obtain rfl : len = 0 := by omega
      exact Or.inl ⟨userRange_zero m root srcva, rfl⟩
  | succ fuel ih =>
      rcases Nat.eq_zero_or_pos len with rfl | hlen
      · exact Or.inl ⟨userRange_zero m root srcva, rfl⟩
      · obtain ⟨hdown, hofs⟩ := pgRoundDown_eq srcva
        obtain ⟨hpos, hle, hpage, hnext⟩ := turn_length srcva hlen
        rw [copyinLoop, if_neg (Nat.ne_of_gt hlen)]
        simp only [hdown, hofs]
        generalize min (pgSize - srcva % 4096) len = n at hpos hle hpage hnext ⊢
        have hsplit : len = n + (len - n) := by omega
        rcases walkaddr_user h srcva with ⟨hlt, hopen, hwalk⟩ | ⟨hclosed, hwalk⟩
        · have hfirst := (userRange_page hpos hpage).mpr ⟨hlt, hopen⟩
          rw [hsplit, userRange_add, readAt_add, ← read_eq_mapped hpage]
          simp only [hwalk, ok_bind, Nat.add_sub_cancel_left, hfirst, true_and]
          rcases Nat.eq_or_lt_of_le hle with rfl | hmore
          · rw [Nat.sub_self]
            have hnone : copyinLoop m root fuel (4096 * (srcva / 4096) + pgSize) 0
                = .ok (some []) := by
              cases fuel <;> rfl
            rw [hnone]
            exact Or.inl ⟨userRange_zero m root _, rfl⟩
          · rw [hnext hmore]
            rcases ih (show len - n ≤ fuel by omega) with ⟨hrest, hloop⟩ | ⟨hrest, hloop⟩
            · rw [hloop]
              exact Or.inl ⟨hrest, rfl⟩
            · rw [hloop]
              exact Or.inr ⟨hrest, rfl⟩
        · rw [hwalk]
          refine Or.inr ⟨?_, rfl⟩
          intro hall
          exact hclosed (hall srcva (le_refl srcva) (by omega))

end Copyin

section Copyout

variable {m : Machine} {root : ℕ}

/-- What a page table maps, and where, does not depend on the pages beside its tables. -/
theorem open_frame {m' : Machine} (hframe : ∀ page ∈ tables m.mem root, m'.mem page = m.mem page)
    (vpn : ℕ) : Open m' root vpn ↔ Open m root vpn := by
  rw [Open, Open, entry_frame hframe]

theorem cellAt_frame {m' : Machine}
    (hframe : ∀ page ∈ tables m.mem root, m'.mem page = m.mem page) :
    cellAt m' root = cellAt m root := by
  funext va
  rw [cellAt, cellAt, entry_frame hframe]

theorem userRange_frame {m' : Machine}
    (hframe : ∀ page ∈ tables m.mem root, m'.mem page = m.mem page) (va len : ℕ) :
    UserRange m' root va len ↔ UserRange m root va len := by
  simp only [UserRange, open_frame hframe]

theorem UserPages.frame {m' : Machine} (h : UserPages m root)
    (hframe : ∀ page ∈ tables m.mem root, m'.mem page = m.mem page) : UserPages m' root := by
  constructor
  · intro vpn hvpn hopen
    rw [entry_frame hframe]
    exact h.nonnull vpn hvpn ((open_frame hframe vpn).mp hopen)
  · intro vpn hvpn hopen
    rw [entry_frame hframe, tables_frame hframe]
    exact h.apart vpn hvpn ((open_frame hframe vpn).mp hopen)

/-- Storing a byte. -/
theorem bytes_store (m : Machine) (page : ℕ) (ofs : Fin pgSize) (byte : BitVec 8) :
    (m.store page ⟨ofs / 8 % 512, Nat.mod_lt _ (by decide)⟩
        (setByte (m.mem page ⟨ofs / 8 % 512, Nat.mod_lt _ (by decide)⟩) (ofs % 8) byte)).bytes
      = Function.update m.bytes (page, ofs) byte := by
  funext ⟨other, addr⟩
  by_cases hpage : other = page
  · subst hpage
    rw [Machine.bytes, byteAt_store ofs.isLt addr.isLt]
    by_cases heq : addr = ofs
    · subst heq
      rw [Function.update_self]
      simp [ByteStore.overwrite]
    · have hne : (other, addr) ≠ (other, ofs) := fun hsame => heq (Prod.ext_iff.mp hsame).2
      rw [Function.update_of_ne hne]
      rcases Nat.lt_or_gt_of_ne (Fin.val_ne_of_ne heq) with hlt | hgt
      · exact ByteStore.overwrite_of_lt _ _ _ hlt
      · exact ByteStore.overwrite_of_ge _ _ _ hgt
  · have hne : (other, addr) ≠ (page, ofs) := fun hsame => hpage (Prod.ext_iff.mp hsame).1
    rw [Function.update_of_ne hne, Machine.bytes, store_of_ne m _ _ hpage]
    rfl

/-- Writing to the page of an address is writing through the translation. -/
theorem bytes_write {t : ℕ → ℕ × Fin pgSize} {page : ℕ} {bytes : List (BitVec 8)} {va ofs : ℕ}
    (hend : ofs + bytes.length ≤ pgSize)
    (ht : ∀ i, (hi : i < bytes.length) → t (va + i) = (page, ⟨ofs + i, by omega⟩)) :
    (m.write page ofs bytes).bytes = writeAt t m.bytes va bytes := by
  induction bytes generalizing m va ofs with
  | nil => rfl
  | cons byte bytes ih =>
      rw [List.length_cons] at hend
      have hfirst : t va = (page, ⟨ofs, by omega⟩) := ht 0 (Nat.zero_lt_succ _)
      rw [Machine.write, writeAt, hfirst, ← bytes_store m page ⟨ofs, by omega⟩ byte]
      apply ih (by omega)
      intro i hi
      have hnext := ht (i + 1) (Nat.succ_lt_succ hi)
      rw [Nat.add_right_comm, Nat.add_assoc, hnext]
      simp only [Prod.mk.injEq, Fin.mk.injEq, true_and]
      omega

/-- What the loop of `copyout` has done when it ends: it has stored the first bytes of the
source, all of them or as many as there is room for before a page that the user may not
use. -/
structure Delivered (m m' : Machine) (root va : ℕ) (src : List (BitVec 8)) (n : ℕ) : Prop where
  le : n ≤ src.length
  range : UserRange m root va n
  stop : n < src.length → ¬ UserRange m root va (n + 1)
  bytes : m'.bytes = writeAt (cellAt m root) m.bytes va (src.take n)
  tables : ∀ page ∈ tables m.mem root, m'.mem page = m.mem page
  free : m'.free = m.free

theorem delivered_nil (m : Machine) (root va : ℕ) : Delivered m m root va [] 0 :=
  ⟨le_refl 0, userRange_zero m root va, fun hlt => absurd hlt (Nat.lt_irrefl 0), rfl,
    fun _ _ => rfl, rfl⟩

/-- A copy of a second list that goes on where the copy of all of a first one ended. -/
theorem Delivered.append {m₁ m' : Machine} {va k : ℕ} {src src' : List (BitVec 8)}
    (h : Delivered m m₁ root va src src.length)
    (h' : Delivered m₁ m' root (va + src.length) src' k) :
    Delivered m m' root va (src ++ src') (src.length + k) := by
  have hle := h'.le
  refine ⟨?_, ?_, ?_, ?_, ?_, ?_⟩
  · rw [List.length_append]
    omega
  · rw [userRange_add]
    exact ⟨h.range, (userRange_frame h.tables _ _).mp h'.range⟩
  · intro hlt hrange
    rw [List.length_append] at hlt
    rw [Nat.add_assoc, userRange_add] at hrange
    exact h'.stop (by omega) ((userRange_frame h.tables _ _).mpr hrange.2)
  · have hbytes := h.bytes
    rw [List.take_length] at hbytes
    rw [h'.bytes, cellAt_frame h.tables, hbytes, List.take_length_add_append, writeAt_append]
  · intro page hpage
    rw [h'.tables page (by rw [tables_frame h.tables]; exact hpage), h.tables page hpage]
  · rw [h'.free, h.free]

theorem copyoutLoop_spec (h : UserPages m root) {fuel va : ℕ} {src : List (BitVec 8)}
    (hfuel : src.length ≤ fuel) :
    ∃ n m', copyoutLoop root fuel va src m = .ok (decide (n = src.length), m') ∧
      Delivered m m' root va src n := by
  induction fuel generalizing m va src with
  | zero =>
      obtain rfl : src = [] := List.length_eq_zero_iff.mp (by omega)
      exact ⟨0, m, rfl, delivered_nil m root va⟩
  | succ fuel ih =>
      by_cases hnil : src = []
      · subst hnil
        exact ⟨0, m, rfl, delivered_nil m root va⟩
      · have hlen := List.length_pos_of_ne_nil hnil
        obtain ⟨hdown, hofs⟩ := pgRoundDown_eq va
        obtain ⟨hpos, hle, hpage, hnext⟩ := turn_length va hlen
        rw [copyoutLoop, if_neg hnil]
        simp only [hdown, hofs]
        generalize min (pgSize - va % 4096) src.length = n at hpos hle hpage hnext ⊢
        rcases walkaddr_user h va with ⟨hlt, hopen, hwalk⟩ | ⟨hclosed, hwalk⟩
        · -- The part in this page is stored; the tables stay as they are.
          have htake : (src.take n).length = n := by rw [List.length_take, Nat.min_eq_left hle]
          have hdrop : (src.drop n).length = src.length - n := List.length_drop
          have hvpn : va / 4096 < 2 ^ 26 := by
            rw [maxVa] at hlt
            omega
          simp only [hwalk, ok_bind]
          generalize hm₁ : m.write (pte2pa (entry m.mem root (va / 4096))) (va % 4096) (src.take n)
            = m₁
          have hframe : ∀ page ∈ tables m.mem root, m₁.mem page = m.mem page := by
            intro page hpage
            rw [← hm₁]
            apply write_of_ne
            rintro rfl
            exact h.apart _ hvpn hopen hpage
          have hfirst : Delivered m m₁ root va (src.take n) (src.take n).length := by
            refine ⟨le_refl _, ?_, fun hlt => absurd hlt (Nat.lt_irrefl _), ?_, hframe, ?_⟩
            · rw [htake]
              exact (userRange_page hpos hpage).mpr ⟨hlt, hopen⟩
            · rw [List.take_length, ← hm₁]
              apply bytes_write (by rw [htake, pgSize]; exact hpage)
              intro i hi
              rw [htake] at hi
              rw [cellAt, Prod.mk.injEq, Fin.mk.injEq, pgSize]
              rw [show (va + i) / 4096 = va / 4096 by omega]
              exact ⟨rfl, by omega⟩
            · rw [← hm₁, write_free]
          rcases Nat.eq_or_lt_of_le hle with rfl | hmore
          · have hdone : copyoutLoop root fuel (4096 * (va / 4096) + pgSize)
                (src.drop src.length) m₁ = .ok (true, m₁) := by
              rw [List.drop_length]
              cases fuel <;> rfl
            rw [List.take_length] at hfirst
            exact ⟨src.length, m₁, by rw [hdone, decide_eq_true rfl], hfirst⟩
          · obtain ⟨k, m', hloop, hrest⟩ := @ih m₁ (h.frame hframe)
              (4096 * (va / 4096) + pgSize) (src.drop n) (by omega)
            have hall := hfirst.append (by rw [htake, hnext hmore]; exact hrest)
            rw [List.take_append_drop, htake] at hall
            refine ⟨n + k, m', ?_, hall⟩
            rw [hloop, hdrop]
            congr 2
            rw [decide_eq_decide]
            omega
        · refine ⟨0, m, ?_, Nat.zero_le _, userRange_zero m root va, ?_, rfl, fun _ _ => rfl, rfl⟩
          · rw [hwalk, decide_eq_false (Nat.ne_of_lt hlen)]
            rfl
          · intro _ hrange
            exact hclosed (hrange va (le_refl va) (by omega))

end Copyout

section Copyinstr

variable {m : Machine} {root : ℕ}

/-- The bytes from `va` on start with a string of `k` characters and its NUL. -/
def StringAt (m : Machine) (root va k : ℕ) : Prop :=
  mappedByte m root (va + k) = 0 ∧ ∀ j, j < k → mappedByte m root (va + j) ≠ 0

/-- The bytes of a page are stored up to the first NUL. -/
theorem copyinstrPage_cases (bytes : List (BitVec 8)) :
    (0 ∉ bytes ∧ copyinstrPage bytes = (false, bytes)) ∨
    ∃ k, bytes[k]? = some 0 ∧ (∀ j, j < k → bytes[j]? ≠ some 0) ∧
      copyinstrPage bytes = (true, bytes.take (k + 1)) := by
  induction bytes with
  | nil => exact Or.inl ⟨List.not_mem_nil, rfl⟩
  | cons ch rest ih =>
      rw [copyinstrPage]
      by_cases hnul : ch = 0
      · subst hnul
        rw [if_pos rfl]
        exact Or.inr ⟨0, rfl, fun j hj => absurd hj (Nat.not_lt_zero j), rfl⟩
      · rw [if_neg hnul]
        rcases ih with ⟨hnot, hpage⟩ | ⟨k, hk, hbefore, hpage⟩
        · rw [hpage]
          exact Or.inl ⟨List.not_mem_cons_of_ne_of_not_mem (Ne.symm hnul) hnot, rfl⟩
        · rw [hpage]
          refine Or.inr ⟨k + 1, hk, ?_, rfl⟩
          intro j hj
          cases j with
          | zero => exact fun hsome => hnul (Option.some.inj hsome)
          | succ j => exact hbefore j (Nat.lt_of_succ_lt_succ hj)

theorem getElem?_readAt (m : Machine) (root va : ℕ) {n k : ℕ} (hk : k < n) :
    (readAt (cellAt m root) m.bytes va n)[k]? = some (mappedByte m root (va + k)) := by
  rw [readAt, List.getElem?_map, List.getElem?_range' hk, Nat.one_mul]
  rfl

theorem take_readAt (m : Machine) (root va : ℕ) {n k : ℕ} (hk : k ≤ n) :
    (readAt (cellAt m root) m.bytes va n).take k = readAt (cellAt m root) m.bytes va k := by
  rw [← Nat.add_sub_of_le hk, readAt_add]
  exact List.take_left' (length_readAt va k)

/-- `copyinstr` stores the string if it ends within the range and the user may use all pages
up to its NUL, and otherwise as many bytes as there is room or pages for. -/
theorem copyinstrLoop_spec (h : UserPages m root) {fuel va max : ℕ} (hfuel : max ≤ fuel) :
    (∃ k, k < max ∧ UserRange m root va (k + 1) ∧ StringAt m root va k ∧
      copyinstrLoop m root fuel va max
        = .ok (true, readAt (cellAt m root) m.bytes va (k + 1))) ∨
    ((∀ k, k < max → UserRange m root va (k + 1) → mappedByte m root (va + k) ≠ 0) ∧
      ∃ n, n ≤ max ∧ copyinstrLoop m root fuel va max
        = .ok (false, readAt (cellAt m root) m.bytes va n)) := by
  induction fuel generalizing va max with
  | zero =>
      obtain rfl : max = 0 := by omega
      exact Or.inr ⟨fun k hk => absurd hk (Nat.not_lt_zero k), 0, le_refl 0, rfl⟩
  | succ fuel ih =>
      rcases Nat.eq_zero_or_pos max with rfl | hmax
      · exact Or.inr ⟨fun k hk => absurd hk (Nat.not_lt_zero k), 0, le_refl 0, rfl⟩
      · obtain ⟨hdown, hofs⟩ := pgRoundDown_eq va
        obtain ⟨hpos, hle, hpage, hnext⟩ := turn_length va hmax
        rw [copyinstrLoop, if_neg (Nat.ne_of_gt hmax)]
        simp only [hdown, hofs]
        generalize min (pgSize - va % 4096) max = n at hpos hle hpage hnext ⊢
        rcases walkaddr_user h va with ⟨hlt, hopen, hwalk⟩ | ⟨hclosed, hwalk⟩
        · have hfirst := (userRange_page hpos hpage).mpr ⟨hlt, hopen⟩
          simp only [hwalk, ok_bind, read_eq_mapped hpage]
          rcases copyinstrPage_cases (readAt (cellAt m root) m.bytes va n) with
            ⟨hnot, hstored⟩ | ⟨k, hk, hbefore, hstored⟩
          · -- No NUL in this page: the first `n` bytes are stored and the loop goes on.
            have hchars : ∀ j, j < n → mappedByte m root (va + j) ≠ 0 := by
              intro j hj hzero
              have hget := getElem?_readAt m root va hj
              rw [hzero] at hget
              exact hnot (List.mem_of_getElem? hget)
            simp only [hstored, Bool.false_eq_true, if_false]
            rcases Nat.eq_or_lt_of_le hle with rfl | hmore
            · have hnone : copyinstrLoop m root fuel (4096 * (va / 4096) + pgSize) 0
                  = .ok (false, []) := by
                cases fuel <;> rfl
              rw [Nat.sub_self, hnone]
              refine Or.inr ⟨fun k hk _ => hchars k hk, n, le_refl n, ?_⟩
              simp only [ok_bind, List.append_nil]
              rfl
            · rw [← hnext hmore]
              rcases ih (show max - n ≤ fuel by omega) with
                ⟨k, hk, hrange, ⟨hnul, hchars'⟩, hloop⟩ | ⟨hnone, k, hk, hloop⟩
              · rw [hloop]
                refine Or.inl ⟨n + k, by omega, ?_, ⟨?_, ?_⟩, ?_⟩
                · rw [Nat.add_assoc, userRange_add]
                  exact ⟨hfirst, hrange⟩
                · rw [← Nat.add_assoc]
                  exact hnul
                · intro j hj
                  by_cases hin : j < n
                  · exact hchars j hin
                  · have hlater := hchars' (j - n) (by omega)
                    rwa [Nat.add_assoc, Nat.add_sub_of_le (by omega)] at hlater
                · rw [Nat.add_assoc, readAt_add va n (k + 1)]
                  rfl
              · rw [hloop]
                refine Or.inr ⟨?_, n + k, by omega, by rw [readAt_add]; rfl⟩
                intro j hj hrange
                by_cases hin : j < n
                · exact hchars j hin
                · have hsplit : j + 1 = n + (j - n + 1) := by omega
                  rw [hsplit, userRange_add] at hrange
                  have hlater := hnone (j - n) (by omega) hrange.2
                  rwa [Nat.add_assoc, Nat.add_sub_of_le (by omega)] at hlater
          · have hlt : k < n := by
              have hlen := (List.getElem?_eq_some_iff.mp hk).1
              rwa [length_readAt] at hlen
            simp only [hstored, if_true]
            refine Or.inl ⟨k, by omega, hfirst.mono hlt, ⟨?_, ?_⟩, ?_⟩
            · rw [getElem?_readAt m root va hlt] at hk
              exact Option.some.inj hk
            · intro j hj hzero
              apply hbefore j hj
              rw [getElem?_readAt m root va (hj.trans hlt), hzero]
            · rw [take_readAt m root va hlt]
              rfl
        · rw [hwalk]
          refine Or.inr ⟨?_, 0, Nat.zero_le _, rfl⟩
          intro k _ hrange
          exact absurd (hrange va (le_refl va) (by omega)) hclosed

end Copyinstr

/-- The bytes of the range from `va` on are `src`, and nothing else has changed. -/
structure Stores (m m' : Machine) (root va : ℕ) (src : List (BitVec 8)) : Prop where
  bytes : readAt (cellAt m root) m'.bytes va src.length = src
  others : ∀ cell, (∀ a, va ≤ a → a < va + src.length → cellAt m root a ≠ cell) →
    m'.bytes cell = m.bytes cell
  table : entry m'.mem root = entry m.mem root
  free : m'.free = m.free

/-- `copyout` succeeds if and only if the user may use all pages of the range, and then the
bytes of the range are the source and are what `copyin` delivers. -/
def CopyoutExact (m : Machine) (root : ℕ) : Prop :=
  ∀ va src, ∃ ok m', copyout m root va src = .ok (ok, m') ∧
    (ok = true ↔ UserRange m root va src.length) ∧
    (ok = true → Stores m m' root va src ∧ copyin m' root va src.length = .ok (some src))

/-- `copyin` succeeds if and only if the user may use all pages of the range, and then it
delivers the bytes of the range. -/
def CopyinExact (m : Machine) (root : ℕ) : Prop :=
  ∀ va len, ∃ result, copyin m root va len = .ok result ∧
    (result.isSome ↔ UserRange m root va len) ∧
    ∀ bytes, result = some bytes → bytes = (List.range' va len).map (mappedByte m root)

/-- `copyinstr` succeeds if and only if there is a NUL among the first `max` bytes and the
user may use all pages up to it, and then the string with its NUL is stored.  At most `max`
bytes are stored in any case. -/
def CopyinstrExact (m : Machine) (root : ℕ) : Prop :=
  ∀ va max, ∃ ok stored, copyinstr m root va max = .ok (ok, stored) ∧ stored.length ≤ max ∧
    (ok = true ↔
      ∃ k, k < max ∧ UserRange m root va (k + 1) ∧ mappedByte m root (va + k) = 0) ∧
    (ok = true → ∃ k, k < max ∧ StringAt m root va k ∧
      stored = (List.range' va (k + 1)).map (mappedByte m root))

/-- The loops end by their own tests within a turn for each byte: more turns change
nothing. -/
structure LoopsEnd (m : Machine) (root : ℕ) : Prop where
  copyout : ∀ va src fuel, src.length ≤ fuel →
    copyoutLoop root fuel va src m = Vm.copyout m root va src
  copyin : ∀ va len fuel, len ≤ fuel → copyinLoop m root fuel va len = Vm.copyin m root va len
  copyinstr : ∀ va max fuel, max ≤ fuel →
    copyinstrLoop m root fuel va max = Vm.copyinstr m root va max

section Access

variable {m : Machine} {root : ℕ}

/-- Different addresses that the user may use are different cells. -/
theorem DistinctPages.cellAt_inj (h : DistinctPages m root) {va n : ℕ}
    (hrange : UserRange m root va n) {i j : ℕ} (hi : i < n) (hj : j < n)
    (heq : cellAt m root (va + i) = cellAt m root (va + j)) : i = j := by
  obtain ⟨hlt, hopen⟩ := hrange (va + i) (by omega) (by omega)
  obtain ⟨hlt', hopen'⟩ := hrange (va + j) (by omega) (by omega)
  rw [cellAt, cellAt, Prod.mk.injEq, Fin.mk.injEq] at heq
  rw [maxVa] at hlt hlt'
  rw [pgSize] at heq hopen hopen'
  have hpage := h _ _ (by omega) (by omega) hopen hopen' heq.1
  have hofs := heq.2
  omega

theorem Delivered.stores {m' : Machine} {va : ℕ} {src : List (BitVec 8)}
    (hdistinct : DistinctPages m root) (h : Delivered m m' root va src src.length) :
    Stores m m' root va src := by
  have hbytes := h.bytes
  rw [List.take_length] at hbytes
  refine ⟨?_, ?_, funext (entry_frame h.tables), h.free⟩
  · rw [hbytes]
    exact readAt_writeAt fun i j hi hj heq => hdistinct.cellAt_inj h.range hi hj heq
  · intro cell hcell
    rw [hbytes]
    apply writeAt_of_ne
    intro i hi
    exact hcell (va + i) (by omega) (by omega)

theorem UserPages.copyout_exact (h : UserPages m root) (hdistinct : DistinctPages m root) :
    CopyoutExact m root := by
  intro va src
  obtain ⟨n, m', hloop, hdone⟩ := @copyoutLoop_spec m root h src.length va src (le_refl _)
  refine ⟨_, m', hloop, ?_, ?_⟩
  · rw [decide_eq_true_iff]
    constructor
    · rintro rfl
      exact hdone.range
    · intro hall
      by_contra hne
      have hlt := Nat.lt_of_le_of_ne hdone.le hne
      exact hdone.stop hlt (hall.mono hlt)
  · intro hok
    obtain rfl := of_decide_eq_true hok
    have hstores := hdone.stores hdistinct
    refine ⟨hstores, ?_⟩
    rcases @copyinLoop_spec m' root (h.frame hdone.tables) src.length va src.length (le_refl _) with
      ⟨-, hcopy⟩ | ⟨hnot, -⟩
    · rw [cellAt_frame hdone.tables, hstores.bytes] at hcopy
      exact hcopy
    · exact absurd ((userRange_frame hdone.tables va src.length).mpr hdone.range) hnot

theorem UserPages.copyin_exact (h : UserPages m root) : CopyinExact m root := by
  intro va len
  rcases @copyinLoop_spec m root h len va len (le_refl len) with ⟨hall, hcopy⟩ | ⟨hnot, hcopy⟩
  · refine ⟨_, hcopy, iff_of_true rfl hall, ?_⟩
    intro bytes hbytes
    exact (Option.some.inj hbytes).symm
  · exact ⟨_, hcopy, iff_of_false (by simp) hnot, by simp⟩

theorem UserPages.copyinstr_exact (h : UserPages m root) : CopyinstrExact m root := by
  intro va max
  rcases @copyinstrLoop_spec m root h max va max (le_refl max) with
    ⟨k, hk, hrange, hstring, hloop⟩ | ⟨hnone, n, hn, hloop⟩
  · refine ⟨_, _, hloop, by rw [length_readAt]; exact hk,
      iff_of_true rfl ⟨k, hk, hrange, hstring.1⟩, fun _ => ⟨k, hk, hstring, rfl⟩⟩
  · refine ⟨_, _, hloop, by rw [length_readAt]; exact hn, iff_of_false (by simp) ?_, by simp⟩
    rintro ⟨k, hk, hrange, hnul⟩
    exact hnone k hk hrange hnul

/-- A loop that every turn leaves with less to do ends: the fuel does not matter once it is
no less than what there is to do. -/
theorem loop_fuel {σ α : Type} (loop : ℕ → σ → α) (todo : σ → ℕ)
    (hdone : ∀ fuel s, todo s = 0 → loop fuel s = loop 0 s)
    (hturn : ∀ fuel fuel' s, 0 < todo s →
      (∀ s', todo s' < todo s → loop fuel s' = loop fuel' s') →
      loop (fuel + 1) s = loop (fuel' + 1) s)
    {fuel fuel' : ℕ} (s : σ) (hfuel : todo s ≤ fuel) (hfuel' : todo s ≤ fuel') :
    loop fuel s = loop fuel' s := by
  induction hn : todo s using Nat.strong_induction_on generalizing fuel fuel' s with
  | _ n ih =>
      subst hn
      rcases Nat.eq_zero_or_pos (todo s) with hzero | hpos
      · rw [hdone fuel s hzero, hdone fuel' s hzero]
      · obtain ⟨less, rfl⟩ := Nat.exists_eq_succ_of_ne_zero (show fuel ≠ 0 by omega)
        obtain ⟨less', rfl⟩ := Nat.exists_eq_succ_of_ne_zero (show fuel' ≠ 0 by omega)
        refine hturn less less' s hpos fun s' hlt => ?_
        exact ih (todo s') hlt s' (by omega) (by omega) rfl

theorem turn_less (va : ℕ) {len : ℕ} (hlen : 0 < len) :
    len - min (pgSize - (va - pgRoundDown va)) len < len := by
  have hturn := turn_length va hlen
  rw [(pgRoundDown_eq va).1, (pgRoundDown_eq va).2]
  omega

theorem copyoutLoop_fuel (root : ℕ) {fuel fuel' va : ℕ} {src : List (BitVec 8)} (m : Machine)
    (hfuel : src.length ≤ fuel) (hfuel' : src.length ≤ fuel') :
    copyoutLoop root fuel va src m = copyoutLoop root fuel' va src m := by
  refine loop_fuel (fun fuel s => copyoutLoop root fuel s.1 s.2.1 s.2.2)
    (fun s => s.2.1.length) ?_ ?_ (va, src, m) hfuel hfuel'
  · rintro fuel ⟨va, src, m⟩ hzero
    obtain rfl := List.length_eq_zero_iff.mp hzero
    cases fuel <;> rfl
  · rintro fuel fuel' ⟨va, src, m⟩ hpos hless
    have hrest : ∀ va' m',
        copyoutLoop root fuel va'
            (src.drop (min (pgSize - (va - pgRoundDown va)) src.length)) m'
          = copyoutLoop root fuel' va'
            (src.drop (min (pgSize - (va - pgRoundDown va)) src.length)) m' := by
      refine fun va' m' => hless (va', src.drop _, m') ?_
      simpa only [List.length_drop] using turn_less va hpos
    simp only [copyoutLoop, hrest]

theorem copyinLoop_fuel (m : Machine) (root : ℕ) {fuel fuel' va len : ℕ} (hfuel : len ≤ fuel)
    (hfuel' : len ≤ fuel') : copyinLoop m root fuel va len = copyinLoop m root fuel' va len := by
  refine loop_fuel (fun fuel s => copyinLoop m root fuel s.1 s.2) Prod.snd ?_ ?_ (va, len)
    hfuel hfuel'
  · rintro fuel ⟨va, len⟩ rfl
    cases fuel <;> rfl
  · rintro fuel fuel' ⟨va, len⟩ hpos hless
    have hrest := fun va' => hless (va', _) (turn_less va hpos)
    simp only [copyinLoop, hrest]

theorem copyinstrLoop_fuel (m : Machine) (root : ℕ) {fuel fuel' va max : ℕ} (hfuel : max ≤ fuel)
    (hfuel' : max ≤ fuel') :
    copyinstrLoop m root fuel va max = copyinstrLoop m root fuel' va max := by
  refine loop_fuel (fun fuel s => copyinstrLoop m root fuel s.1 s.2) Prod.snd ?_ ?_ (va, max)
    hfuel hfuel'
  · rintro fuel ⟨va, max⟩ rfl
    cases fuel <;> rfl
  · rintro fuel fuel' ⟨va, max⟩ hpos hless
    have hrest := fun va' => hless (va', _) (turn_less va hpos)
    simp only [copyinstrLoop, hrest]

theorem loopsEnd (m : Machine) (root : ℕ) : LoopsEnd m root where
  copyout _ _ _ hfuel := copyoutLoop_fuel root m hfuel (le_refl _)
  copyin _ _ _ hfuel := copyinLoop_fuel m root hfuel (le_refl _)
  copyinstr _ _ _ hfuel := copyinstrLoop_fuel m root hfuel (le_refl _)

/-- Where the pages that the user may use are different physical pages, none of them at the
address 0 or a table of the page table, the copies are accesses to virtual memory. -/
theorem copies_access_memory (h : UserPages m root) (hdistinct : DistinctPages m root) :
    CopyoutExact m root ∧ CopyinExact m root ∧ CopyinstrExact m root ∧ LoopsEnd m root :=
  ⟨h.copyout_exact hdistinct, h.copyin_exact, h.copyinstr_exact, loopsEnd m root⟩

end Access

section Example

/-- A page table in the pages 1, 2 and 3 that maps the last two pages of its last table, the
first of them to `target` and the second to the page 4. -/
def twoPages (target : ℕ) : Machine where
  mem page i :=
    if page = 1 ∧ i.val = 0 then pa2pte 2 ||| pteV
    else if page = 2 ∧ i.val = 0 then pa2pte 3 ||| pteV
    else if page = 3 ∧ i.val = 510 then pa2pte target ||| (pteR ||| pteW ||| pteU ||| pteV)
    else if page = 3 ∧ i.val = 511 then pa2pte 4 ||| (pteR ||| pteW ||| pteU ||| pteV)
    else 0
  free := []

variable {target : ℕ}

theorem node_twoPages (i j : Fin 512) :
    node next (twoPages target).mem 1 [i] = (if i = 0 then some 2 else none) ∧
      node next (twoPages target).mem 1 [i, j] = if i = 0 ∧ j = 0 then some 3 else none := by
  have hroot : next ((twoPages target).mem 1 i) = if i = 0 then some 2 else none := by
    by_cases hi : i = 0
    · simp [twoPages, hi, next_table (show 2 < 2 ^ 52 by decide)]
    · have hval : i.val ≠ 0 := fun h => hi (Fin.ext h)
      simp only [twoPages, hi, hval, and_false, if_false, Nat.reduceEqDiff, false_and]
      exact next_zero
  have hmiddle : next ((twoPages target).mem 2 j) = if j = 0 then some 3 else none := by
    by_cases hj : j = 0
    · simp [twoPages, hj, next_table (show 3 < 2 ^ 52 by decide)]
    · have hval : j.val ≠ 0 := fun h => hj (Fin.ext h)
      simp only [twoPages, hj, hval, and_false, if_false, Nat.reduceEqDiff, false_and]
      exact next_zero
  simp only [node, hroot]
  by_cases hi : i = 0
  · simp [hi, hmiddle]
  · simp [hi]

theorem tables_twoPages {page : ℕ} (h : page ∈ tables (twoPages target).mem 1) :
    page = 1 ∨ page = 2 ∨ page = 3 := by
  obtain ⟨path, hlength, hpath⟩ := h
  match path, hlength with
  | [], _ => exact Or.inl (Option.some.inj hpath).symm
  | [i], _ =>
      rw [(node_twoPages i 0).1] at hpath
      split at hpath
      · exact Or.inr (Or.inl (Option.some.inj hpath).symm)
      · cases hpath
  | [i, j], _ =>
      rw [(node_twoPages i j).2] at hpath
      split at hpath
      · exact Or.inr (Or.inr (Option.some.inj hpath).symm)
      · cases hpath

/-- The user may use the two pages and no others. -/
theorem open_twoPages (htarget : target < 2 ^ 52) {vpn : ℕ} (hvpn : vpn < 2 ^ 26)
    (hopen : Open (twoPages target) 1 vpn) :
    (vpn = 510 ∧ pte2pa (entry (twoPages target).mem 1 vpn) = target) ∨
      (vpn = 511 ∧ pte2pa (entry (twoPages target).mem 1 vpn) = 4) := by
  have hpath := (@node_twoPages target (idx 2 vpn) (idx 1 vpn)).2
  have hvalid := hopen.1
  by_cases hupper : idx 2 vpn = 0 ∧ idx 1 vpn = 0
  · rw [if_pos hupper] at hpath
    have hentry := entry_of_node (show node next _ 1 (pathOf vpn) = some 3 from hpath)
    simp only [idx, Fin.ext_iff] at hupper
    by_cases hfirst : idx 0 vpn = 510
    · left
      rw [hentry, hfirst]
      have hlow := Fin.ext_iff.mp hfirst
      simp only [idx] at hlow
      refine ⟨by omega, ?_⟩
      exact pte2pa_entry htarget (by decide)
    · by_cases hsecond : idx 0 vpn = 511
      · right
        rw [hentry, hsecond]
        have hlow := Fin.ext_iff.mp hsecond
        simp only [idx] at hlow
        refine ⟨by omega, ?_⟩
        exact pte2pa_entry (show 4 < 2 ^ 52 by decide) (by decide)
      · have hval : (idx 0 vpn).val ≠ 510 := fun h => hfirst (Fin.ext h)
        have hval' : (idx 0 vpn).val ≠ 511 := fun h => hsecond (Fin.ext h)
        rw [hentry] at hvalid
        simp only [twoPages, hval, hval', and_false, if_false, Nat.reduceEqDiff, false_and]
          at hvalid
        exact absurd hvalid not_valid_zero
  · rw [if_neg hupper] at hpath
    rw [entry_of_none hpath] at hvalid
    exact absurd hvalid not_valid_zero

theorem twoPages_distinct (htarget : target < 2 ^ 52) (hne : target ≠ 4) :
    DistinctPages (twoPages target) 1 := by
  intro vpn vpn' hvpn hvpn' hopen hopen' heq
  rcases open_twoPages htarget hvpn hopen with ⟨rfl, hpage⟩ | ⟨rfl, hpage⟩ <;>
    rcases open_twoPages htarget hvpn' hopen' with ⟨rfl, hpage'⟩ | ⟨rfl, hpage'⟩
  · rfl
  · exact absurd (hpage.symm.trans (heq.trans hpage')) hne
  · exact absurd (hpage'.symm.trans (heq.symm.trans hpage)) hne
  · rfl

theorem twoPages_nonnull (htarget : target < 2 ^ 52) (hne : target ≠ 0) {vpn : ℕ}
    (hvpn : vpn < 2 ^ 26) (hopen : Open (twoPages target) 1 vpn) :
    pte2pa (entry (twoPages target).mem 1 vpn) ≠ 0 := by
  rcases open_twoPages htarget hvpn hopen with ⟨-, hpage⟩ | ⟨-, hpage⟩
  · rw [hpage]
    exact hne
  · rw [hpage]
    decide

theorem twoPages_apart (htarget : target < 2 ^ 52) (hne : target ≠ 1 ∧ target ≠ 2 ∧ target ≠ 3)
    {vpn : ℕ} (hvpn : vpn < 2 ^ 26) (hopen : Open (twoPages target) 1 vpn) :
    pte2pa (entry (twoPages target).mem 1 vpn) ∉ tables (twoPages target).mem 1 := by
  intro hmem
  have htable := tables_twoPages hmem
  rcases open_twoPages htarget hvpn hopen with ⟨-, hpage⟩ | ⟨-, hpage⟩
  · rw [hpage] at htable
    omega
  · rw [hpage] at htable
    omega

/-- The user may use both pages whatever the first is. -/
theorem userRange_twoPages (htarget : target < 2 ^ 52) {ofs n : ℕ} (hend : ofs + n ≤ 8192) :
    UserRange (twoPages target) 1 (510 * 4096 + ofs) n := by
  have hflags : ∀ page, page < 2 ^ 52 →
      Valid (pa2pte page ||| (pteR ||| pteW ||| pteU ||| pteV)) ∧
        (pa2pte page ||| (pteR ||| pteW ||| pteU ||| pteV)) &&& pteU ≠ 0 := by
    intro page hpage
    rw [Valid, entry_and hpage (by decide), entry_and hpage (by decide)]
    decide
  intro a hlo hhi
  have hpath : node next (twoPages target).mem 1 (pathOf (a / pgSize)) = some 3 := by
    have hnode := (@node_twoPages target (idx 2 (a / pgSize)) (idx 1 (a / pgSize))).2
    rw [if_pos] at hnode
    · exact hnode
    · simp only [idx, Fin.ext_iff, pgSize]
      omega
  refine ⟨by rw [maxVa]; omega, ?_⟩
  rw [Open, entry_of_node hpath]
  have hcases : a / pgSize = 510 ∨ a / pgSize = 511 := by
    rw [pgSize]
    omega
  rcases hcases with heq | heq
  · rw [heq]
    exact hflags target htarget
  · rw [heq]
    exact hflags 4 (by decide)

/-- Nine bytes across the boundary between the two pages. -/
theorem copies_access_memory_twoPages :
    UserRange (twoPages 5) 1 (510 * 4096 + 4088) 9 ∧ CopyoutExact (twoPages 5) 1 := by
  refine ⟨userRange_twoPages (by decide) (by decide), ?_⟩
  have hpages : UserPages (twoPages 5) 1 :=
    ⟨fun vpn => twoPages_nonnull (by decide) (by decide),
      fun vpn => twoPages_apart (by decide) (by decide)⟩
  exact (copies_access_memory hpages (twoPages_distinct (by decide) (by decide))).1

/-- A page that is a table of the page table is written over with the entry of the next page;
a page at the address 0 counts as not mapped. -/
theorem copyout_not_exact :
    (DistinctPages (twoPages 3) 1 ∧
      (∀ vpn, vpn < 2 ^ 26 → Open (twoPages 3) 1 vpn →
        pte2pa (entry (twoPages 3).mem 1 vpn) ≠ 0) ∧ ¬ CopyoutExact (twoPages 3) 1) ∧
    (DistinctPages (twoPages 0) 1 ∧
      (∀ vpn, vpn < 2 ^ 26 → Open (twoPages 0) 1 vpn →
        pte2pa (entry (twoPages 0).mem 1 vpn) ∉ tables (twoPages 0).mem 1) ∧
      ¬ CopyoutExact (twoPages 0) 1) := by
  have hfails : ∀ (target : ℕ) (src : List (BitVec 8)), target < 2 ^ 52 → src.length ≤ 9 →
      (copyout (twoPages target) 1 (510 * 4096 + 4088) src).map Prod.fst = .ok false →
      ¬ CopyoutExact (twoPages target) 1 := by
    intro target src htarget hlength hfalse hexact
    obtain ⟨ok, m', hcopy, hiff, -⟩ := hexact (510 * 4096 + 4088) src
    have hok := hiff.mpr (userRange_twoPages htarget (by omega))
    rw [hcopy, hok] at hfalse
    cases hfalse
  refine ⟨⟨twoPages_distinct (by decide) (by decide),
    fun vpn => twoPages_nonnull (by decide) (by decide), ?_⟩,
    twoPages_distinct (by decide) (by decide),
    fun vpn => twoPages_apart (by decide) (by decide), ?_⟩
  · exact hfails 3 (List.replicate 9 0) (by decide) (by decide) (by decide +kernel)
  · exact hfails 0 [0] (by decide) (by decide) (by decide +kernel)

end Example

end OperateSystem.Vm

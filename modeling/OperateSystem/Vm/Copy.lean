import OperateSystem.Vm.Grow

/-!
# Duplicating address spaces

`uvmcopy` copies the pages of one space into another; `kvmcopy` maps the pages of
a user table in a kernel table as well.  The source is only read, so all that is
asked of it is that its pages are away from those the copy works on.
-/

namespace OperateSystem.Vm

open OperateSystem.PointerTree

/-- Pages that belong neither to the holding nor to the free list. -/
def Away (source held : Set ℕ) (m : Machine) : Prop :=
  ∀ page ∈ source, page ∉ held ∧ page ∉ m.free

theorem Moves.away {held held' source : Set ℕ} {m m' : Machine} (h : Moves held held' m m')
    (haway : Away source held m) :
    Away source held' m' ∧ ∀ page ∈ source, m'.mem page = m.mem page := by
  constructor
  · intro page hpage
    rw [← not_or, h.conserve, not_or]
    exact haway page hpage
  · intro page hpage
    exact h.frame page (haway page hpage).1 (haway page hpage).2

/-- The entry for a page of a kernel table that mirrors a user entry. -/
def mirrorWord (pte : Word) : Word := pa2pte (pte2pa pte) ||| (pteFlags pte &&& ~~~pteU) ||| pteV

/-- The map with `n` pages from `lo` on mirrored from `source`. -/
def mirrorMap (source map : ℕ → Word) (lo n : ℕ) : ℕ → Word := fun vpn =>
  if lo ≤ vpn ∧ vpn < lo + n then mirrorWord (source vpn) else map vpn

theorem mirrorMap_zero (source map : ℕ → Word) (lo : ℕ) : mirrorMap source map lo 0 = map := by
  funext vpn
  rw [mirrorMap, if_neg (by omega)]

theorem mirrorMap_succ (source map : ℕ → Word) (lo n : ℕ) :
    mirrorMap source (Function.update map lo (mirrorWord (source lo))) (lo + 1) n
      = mirrorMap source map lo (n + 1) := by
  funext vpn
  simp only [mirrorMap, Function.update_apply]
  rcases Nat.lt_trichotomy vpn lo with hlt | rfl | hgt
  · rw [if_neg (by omega), if_neg (by omega), if_neg (by omega)]
  · rw [if_neg (by omega), if_pos rfl, if_pos (by omega)]
  · by_cases hend : vpn < lo + (n + 1)
    · rw [if_pos (by omega), if_pos (by omega)]
    · rw [if_neg (by omega), if_neg (by omega), if_neg (by omega)]

section Flags

theorem leaf_mirror {pte : Word} (h : Leaf pte) : Leaf (pteFlags pte &&& ~~~pteU) := by
  have hmask : 0x3FF &&& (~~~pteU &&& (pteR ||| pteW ||| pteX)) = pteR ||| pteW ||| pteX := by
    decide
  rw [Leaf, pteFlags, BitVec.and_assoc, BitVec.and_assoc, hmask]
  exact h

theorem leaf_flags {pte : Word} (h : Leaf pte) : Leaf (pteFlags pte) := by
  have hmask : 0x3FF &&& (pteR ||| pteW ||| pteX) = pteR ||| pteW ||| pteX := by decide
  rw [Leaf, pteFlags, BitVec.and_assoc, hmask]
  exact h

/-- The flags of a valid entry have the valid bit already. -/
theorem pteFlags_or_valid {pte : Word} (h : Valid pte) : pteFlags pte ||| pteV = pteFlags pte := by
  have hbit : pte &&& pteV = pteV := by
    have hmod : (pte &&& pteV).toNat = pte.toNat % 2 := by
      rw [BitVec.toNat_and]
      exact Nat.and_one_is_mod _
    have hne : (pte &&& pteV).toNat ≠ 0 := fun hzero => h (BitVec.eq_of_toNat_eq hzero)
    apply BitVec.eq_of_toNat_eq
    rw [hmod] at hne ⊢
    exact Nat.mod_two_ne_zero.mp hne
  have hlow : pteFlags pte &&& pteV = pteV := by
    rw [pteFlags, BitVec.and_assoc, show 0x3FF &&& pteV = pteV by decide, hbit]
  rw [← hlow]
  ext i hi
  simp only [BitVec.getElem_or, BitVec.getElem_and]
  cases (pteFlags pte)[i] <;> simp

end Flags

theorem clearMap_cons {map map' : ℕ → Word} {v vpn : ℕ} (hzero : map v = 0)
    (hsame : vpn ≠ v → map' vpn = map vpn) :
    clearMap map' 0 (v + 1) vpn = clearMap map 0 v vpn := by
  simp only [clearMap]
  by_cases heq : vpn = v
  · subst heq
    rw [if_pos (by omega), if_neg (by omega), hzero]
  · rw [hsame heq]
    by_cases hin : vpn < v
    · rw [if_pos (by omega), if_pos (by omega)]
    · rw [if_neg (by omega), if_neg (by omega)]

section Kvmcopy

variable {old new : ℕ}

/-- One turn of the loop of `kvmcopy`: the page is mirrored, or the roll-back
begins. -/
theorem kvmcopyLoop_turn {v : ℕ} {m : Machine} (hnew : Ready m new) (hold : Table m.mem old)
    (hv : v < 2 ^ 26) (hvalid : Valid (entry m.mem old v))
    (hvacant : ¬ Valid (entry m.mem new v)) :
    (∃ m', (∀ n, kvmcopyLoop old new (n + 1) (4096 * v) m
        = kvmcopyLoop old new n (4096 * (v + 1)) m') ∧
      Edit new (missing m.mem new {v})
        (Function.update (entry m.mem new) v (mirrorWord (entry m.mem old v))) m m') ∨
    (∃ m' added, (∀ n, kvmcopyLoop old new (n + 1) (4096 * v) m
        = (uvmunmap m' new 0 v false).map fun m'' => (false, m'')) ∧
      Edit new added (entry m.mem new) m m' ∧
      m.free.length < (missing m.mem new {v}).card) := by
  obtain ⟨table, hnode⟩ := node_of_valid hvalid
  have hfind := find_eq m old hv (show 0 < 4096 by decide)
  rw [Nat.add_zero, hnode, Option.map_some] at hfind
  have hentry := entry_of_node hnode
  have hleaf := leaf_mirror (hold.leaf_entry hvalid)
  have hdiv : 4096 * v / pgSize = v := by
    rw [pgSize]
    omega
  have hmap := mappages_one hnew hv hvacant (pte2pa_lt (entry m.mem old v)) hleaf
    (show 4096 * v = v * 4096 by omega)
  rw [hentry] at hvalid hmap ⊢
  rcases hmap with ⟨m', hmap, hedit, -⟩ | ⟨added, m', hmap, -, hedit, hcard⟩
  · refine Or.inl ⟨m', ?_, hedit⟩
    intro n
    rw [kvmcopyLoop, hfind]
    simp only [ok_bind, hvalid, not_true, if_false, hmap]
    rfl
  · refine Or.inr ⟨m', added, ?_, hedit, hcard⟩
    intro n
    rw [kvmcopyLoop, hfind]
    simp only [ok_bind, hvalid, not_true, if_false, hmap, Bool.false_eq_true, hdiv]
    cases uvmunmap m' new 0 v false <;> rfl

/-- The loop of `kvmcopy` over `n` pages from `v` on.  When the tables for a page
are not to be had, everything below it is unmapped, also what lies below `v`. -/
theorem kvmcopyLoop_spec {n v : ℕ} {m : Machine} (hnew : Ready m new) (hold : Table m.mem old)
    (haway : Away (tables m.mem old) (tables m.mem new) m) (hend : v + n ≤ 2 ^ 26)
    (hvalid : ∀ vpn, v ≤ vpn → vpn < v + n → Valid (entry m.mem old vpn))
    (hvacant : ∀ vpn, v ≤ vpn → vpn < v + n → entry m.mem new vpn = 0)
    (hbelow : ∀ vpn, vpn < v → Valid (entry m.mem new vpn)) :
    (∃ m', kvmcopyLoop old new n (4096 * v) m = .ok (true, m') ∧
      Edit new (missing m.mem new (Finset.Ico v (v + n)))
        (mirrorMap (entry m.mem old) (entry m.mem new) v n) m m') ∨
    (∃ m' added, kvmcopyLoop old new n (4096 * v) m = .ok (false, m') ∧
      Edit new added (clearMap (entry m.mem new) 0 v) m m' ∧
      m.free.length < (missing m.mem new (Finset.Ico v (v + n))).card) := by
  induction n generalizing v m with
  | zero =>
      have hmissing : missing m.mem new (Finset.Ico v (v + 0)) = ∅ := by simp [missing]
      rw [hmissing, mirrorMap_zero]
      exact Or.inl ⟨m, rfl, Edit.refl hnew⟩
  | succ n ih =>
      have hv : v < 2 ^ 26 := by omega
      have hzero := hvacant v (by omega) (by omega)
      have hnot : ¬ Valid (entry m.mem new v) := by
        rw [hzero]
        exact not_valid_zero
      have hvalid₀ := hvalid v (by omega) (by omega)
      rw [Ico_split]
      rcases kvmcopyLoop_turn hnew hold hv hvalid₀ hnot with
        ⟨m₁, hstep, hedit⟩ | ⟨m₁, added, hstep, hedit, hcard⟩
      · obtain ⟨haway₁, hframe⟩ := hedit.moves.away haway
        have hsource := entry_frame hframe
        have hentry₁ : ∀ vpn, vpn < 2 ^ 26 → vpn ≠ v →
            entry m₁.mem new vpn = entry m.mem new vpn := by
          intro vpn hvpn hne
          rw [hedit.entry_eq vpn hvpn, Function.update_of_ne hne]
        have hbelow₁ : ∀ vpn, vpn < v + 1 → Valid (entry m₁.mem new vpn) := by
          intro vpn hvpn
          by_cases heq : vpn = v
          · subst heq
            rw [hedit.entry_eq vpn hv, Function.update_self]
            exact valid_entry _ _
          · rw [hentry₁ vpn (by omega) heq]
            exact hbelow vpn (by omega)
        have hvalid₁ : ∀ vpn, v + 1 ≤ vpn → vpn < v + 1 + n → Valid (entry m₁.mem old vpn) := by
          intro vpn hlo hhi
          rw [hsource]
          exact hvalid vpn (by omega) (by omega)
        have hvacant₁ : ∀ vpn, v + 1 ≤ vpn → vpn < v + 1 + n → entry m₁.mem new vpn = 0 := by
          intro vpn hlo hhi
          rw [hentry₁ vpn (by omega) (by omega)]
          exact hvacant vpn (by omega) (by omega)
        obtain ⟨hunion, hsum⟩ := hedit.toAdds.missing_card (Finset.Ico (v + 1) (v + 1 + n))
        have hcount := hedit.count
        rw [hstep, hsum, hunion]
        rw [← tables_frame hframe] at haway₁
        rcases ih (hedit.ready hnew) (hold.frame hframe) haway₁
          (show v + 1 + n ≤ 2 ^ 26 by omega) hvalid₁ hvacant₁ hbelow₁ with
          ⟨m', hloop, hedit'⟩ | ⟨m', added', hloop, hedit', hcard⟩
        · refine Or.inl ⟨m', hloop, (hedit.trans hedit').congr ?_⟩
          intro vpn hvpn
          rw [← mirrorMap_succ]
          simp only [mirrorMap, hsource, hedit.entry_eq vpn hvpn]
        · refine Or.inr ⟨m', _, hloop, (hedit.trans hedit').congr ?_, by omega⟩
          intro vpn hvpn
          exact clearMap_cons hzero fun hne => hentry₁ vpn hvpn hne
      · have hbelow₁ : ∀ vpn, 0 ≤ vpn → vpn < 0 + v → Valid (entry m₁.mem new vpn) := by
          intro vpn _ hvpn
          rw [hedit.entry_eq vpn (by omega)]
          exact hbelow vpn (by omega)
        obtain ⟨m', hunmap, -, hedit'⟩ := uvmunmap_keep (show 0 = 0 * 4096 by rfl)
          (hedit.ready hnew) (show 0 + v ≤ 2 ^ 26 by omega) hbelow₁
        refine Or.inr ⟨m', _, ?_, (hedit.trans hedit').congr ?_, ?_⟩
        · rw [hstep, hunmap]
          rfl
        · intro vpn hvpn
          simp only [clearMap, hedit.entry_eq vpn hvpn]
        · have hle := card_missing_le m.mem new {v} (Finset.Ico (v + 1) (v + 1 + n))
          omega

/-- `kvmcopy` of the pages from size `st` to size `sz`. -/
theorem kvmcopy_spec (L : Layout) {m : Machine} {st sz : ℕ} (hnew : Ready m new)
    (hold : Table m.mem old) (haway : Away (tables m.mem old) (tables m.mem new) m)
    (hst : st ≤ sz) (hplic : sz ≤ L.plic * 4096) (hend : sz ≤ 2 ^ 38)
    (hvalid : ∀ vpn, pages st ≤ vpn → vpn < pages sz → Valid (entry m.mem old vpn))
    (hvacant : ∀ vpn, pages st ≤ vpn → vpn < pages sz → entry m.mem new vpn = 0)
    (hbelow : ∀ vpn, vpn < pages st → Valid (entry m.mem new vpn)) :
    (∃ m', kvmcopy L m old new st sz = .ok (true, m') ∧
      Edit new (missing m.mem new (Finset.Ico (pages st) (pages sz)))
        (mirrorMap (entry m.mem old) (entry m.mem new) (pages st) (pages sz - pages st)) m m') ∨
    (∃ m' added, kvmcopy L m old new st sz = .ok (false, m') ∧
      Edit new added (clearMap (entry m.mem new) 0 (pages st)) m m' ∧
      m.free.length < (missing m.mem new (Finset.Ico (pages st) (pages sz))).card) := by
  have hpages := pages_mono hst
  have hsum : pages st + (pages sz - pages st) = pages sz := by omega
  have hlast : pages sz ≤ 2 ^ 26 := by
    rw [pages]
    omega
  have hunfold : kvmcopy L m old new st sz
      = kvmcopyLoop old new (pages sz - pages st) (4096 * pages st) m := by
    have hguard : ¬ L.plic * pgSize < sz := by
      rw [pgSize]
      omega
    rw [kvmcopy, if_neg hguard, pgRoundUp_pages (show st < 2 ^ 63 by omega), npages_eq,
      Nat.mul_comm]
  rw [hunfold]
  have hspec := kvmcopyLoop_spec (n := pages sz - pages st) hnew hold haway (by omega)
    (by rw [hsum]; exact hvalid) (by rw [hsum]; exact hvacant) hbelow
  rwa [hsum] at hspec

end Kvmcopy

section Uvmcopy

variable {old new : ℕ}

/-- One turn of the loop of `uvmcopy`.  The copy is faithful unless the page that is
allocated is the one to be copied. -/
theorem uvmcopyLoop_turn {v : ℕ} {m : Machine} {S : Set ℕ} (hnew : Space m.mem new S)
    (hapart : Apart m (held m.mem new S)) (hold : Table m.mem old) (hv : v < 2 ^ 26)
    (hvalid : Valid (entry m.mem old v)) (hvacant : ¬ Valid (entry m.mem new v)) :
    (∃ page m', (∀ n, uvmcopyLoop old new (n + 1) (4096 * v) m
        = uvmcopyLoop old new n (4096 * (v + 1)) m') ∧ page < 2 ^ 52 ∧
      Grow new S (insert v S) (missing m.mem new {v})
        (Function.update (entry m.mem new) v (pa2pte page ||| pteFlags (entry m.mem old v))) m m' ∧
      m.free.length = m'.free.length + 1 + (missing m.mem new {v}).card ∧
      (pte2pa (entry m.mem old v) ∉ m.free →
        m'.mem page = m.mem (pte2pa (entry m.mem old v)))) ∨
    (∃ m' added, (∀ n, uvmcopyLoop old new (n + 1) (4096 * v) m
        = (uvmunmap m' new 0 v true).map fun m'' => (false, m'')) ∧
      Change new S S added (entry m.mem new) m m' ∧
      m'.free.length + added.card = m.free.length ∧
      m.free.length < 1 + (missing m.mem new {v}).card) := by
  obtain ⟨table, hnode⟩ := node_of_valid hvalid
  have hfind := find_eq m old hv (show 0 < 4096 by decide)
  rw [Nat.add_zero, hnode, Option.map_some] at hfind
  have hentry := entry_of_node hnode
  have hleaf := leaf_flags (hold.leaf_entry hvalid)
  have hflags := pteFlags_or_valid hvalid
  have hdiv : 4096 * v / pgSize = v := by
    rw [pgSize]
    omega
  have hacquire := acquire_spec hnew hapart hv hvacant (m.kalloc.2.mem (pte2pa (entry m.mem old v)))
    (pteFlags_toNat (entry m.mem old v)) hleaf
  rw [hentry] at hvalid hacquire hflags ⊢
  rcases hacquire with
    ⟨page, m₁, m₂, hkalloc, hmap, hgrow, hcount, hfilled, hpage, hbound, hother⟩ |
    ⟨hkalloc, hnil⟩ | ⟨page, m₁, m₂, added, hkalloc, hmap, hback, hlength, hcard, -, -⟩
  · rw [hkalloc] at hmap hfilled
    rw [BitVec.or_assoc, hflags] at hgrow
    refine Or.inl ⟨page, m₂, ?_, hbound, hgrow, hcount, ?_⟩
    · intro n
      rw [uvmcopyLoop, hfind]
      simp only [ok_bind, hvalid, not_true, if_false, hkalloc, hmap]
      rfl
    · intro hsource
      rw [hfilled, hother]
      rintro rfl
      exact hsource hpage
  · refine Or.inr ⟨m, ∅, ?_, hnew.refl hapart, by simp, by omega⟩
    intro n
    rw [uvmcopyLoop, hfind]
    simp only [ok_bind, hvalid, not_true, if_false, hkalloc, hdiv]
    cases uvmunmap m new 0 v true <;> rfl
  · rw [hkalloc] at hmap
    refine Or.inr ⟨m₂.kfree page, added, ?_, hback, hlength, hcard⟩
    intro n
    rw [uvmcopyLoop, hfind]
    simp only [ok_bind, hvalid, not_true, if_false, hkalloc, hmap, Bool.false_eq_true, hdiv]
    cases uvmunmap (m₂.kfree page) new 0 v true <;> rfl

/-- The head of a turn of the loop of `uvmcopy`: the pages below `v` are copied and `n` pages
from there on are left. -/
structure Duplicating (old new : ℕ) (S : Set ℕ) (v n : ℕ) (m : Machine) : Prop where
  space : Space m.mem new S
  apart : Apart m (held m.mem new S)
  source : Table m.mem old
  away : Away (tables m.mem old ∪ targets m.mem old (Set.Ico v (v + n))) (held m.mem new S) m
  last : v + n ≤ 2 ^ 26
  valid : ∀ vpn, v ≤ vpn → vpn < v + n → Valid (entry m.mem old vpn)
  vacant : ∀ vpn, v ≤ vpn → vpn < v + n → entry m.mem new vpn = 0
  done : ∀ vpn, vpn < v → vpn ∈ S

/-- The `n` pages from `v` on have got copies of their own, with the flags of the source. -/
structure Duplicated (src dst : ℕ) (S : Set ℕ) (v n : ℕ) (map : ℕ → Word) (m m' : Machine) :
    Prop extends
    Grow dst S (S ∪ Set.Ico v (v + n)) (missing m.mem dst (Finset.Ico v (v + n))) map m m' where
  count : m.free.length = m'.free.length + n + (missing m.mem dst (Finset.Ico v (v + n))).card
  outside : ∀ vpn, vpn < 2 ^ 26 → vpn ∉ Set.Ico v (v + n) → map vpn = entry m.mem dst vpn
  copies : ∀ vpn ∈ Set.Ico v (v + n), pteFlags (map vpn) = pteFlags (entry m.mem src vpn) ∧
    m'.mem (pte2pa (map vpn)) = m.mem (pte2pa (entry m.mem src vpn))

/-- The free pages do not suffice, and the copies below `v` are given back. -/
structure Unduplicated (dst : ℕ) (S : Set ℕ) (v n : ℕ) (added : Finset (List (Fin 512)))
    (m m' : Machine) : Prop extends
    Change dst S (S \ Set.Ico 0 v) added (clearMap (entry m.mem dst) 0 v) m m' where
  count : m'.free.length + added.card = m.free.length + v
  short : m.free.length < n + (missing m.mem dst (Finset.Ico v (v + n))).card

section Turn

variable {S : Set ℕ} {v n : ℕ} {m m₁ m' : Machine} {added : Finset (List (Fin 512))}
  {word : Word} {map : ℕ → Word}

theorem Duplicating.frame (h : Duplicating old new S v (n + 1) m)
    (hgrow : Grow new S (insert v S) added map m m₁) :
    (∀ page ∈ tables m.mem old, m₁.mem page = m.mem page) ∧
      ∀ vpn ∈ Set.Ico v (v + (n + 1)),
        m₁.mem (pte2pa (entry m.mem old vpn)) = m.mem (pte2pa (entry m.mem old vpn)) := by
  obtain ⟨-, hframe⟩ := hgrow.moves.away h.away
  exact ⟨fun page hpage => hframe page (Or.inl hpage),
    fun vpn hvpn => hframe _ (Or.inr ⟨vpn, hvpn, rfl⟩)⟩

theorem entry_ne (hgrow : Grow new S (insert v S) added
    (Function.update (entry m.mem new) v word) m m₁) {vpn : ℕ} (hvpn : vpn < 2 ^ 26)
    (hne : vpn ≠ v) : entry m₁.mem new vpn = entry m.mem new vpn := by
  rw [hgrow.entry_eq vpn hvpn, Function.update_of_ne hne]

/-- A turn that copies a page leads to the head of the next. -/
theorem Duplicating.next (h : Duplicating old new S v (n + 1) m)
    (hgrow : Grow new S (insert v S) added (Function.update (entry m.mem new) v word) m m₁) :
    Duplicating old new (insert v S) (v + 1) n m₁ := by
  have hlast := h.last
  obtain ⟨haway₁, -⟩ := hgrow.moves.away h.away
  obtain ⟨hframe, -⟩ := h.frame hgrow
  have hsource := entry_frame hframe
  refine ⟨hgrow.space, hgrow.toChange.apart h.apart, h.source.frame hframe, ?_, by omega, ?_, ?_,
    ?_⟩
  · rintro page (htable | ⟨vpn, hvpn, rfl⟩)
    · exact haway₁ page (Or.inl (by rwa [tables_frame hframe] at htable))
    · rw [Set.mem_Ico] at hvpn
      rw [hsource]
      exact haway₁ _ (Or.inr ⟨vpn, by rw [Set.mem_Ico]; omega, rfl⟩)
  · intro vpn hlo hhi
    rw [hsource]
    exact h.valid vpn (by omega) (by omega)
  · intro vpn hlo hhi
    rw [entry_ne hgrow (by omega) (by omega)]
    exact h.vacant vpn (by omega) (by omega)
  · intro vpn hvpn
    by_cases heq : vpn = v
    · exact Or.inl heq
    · exact Or.inr (h.done vpn (by omega))

/-- A page that is copied, and then all the others. -/
theorem Duplicated.cons {page : ℕ} (h : Duplicating old new S v (n + 1) m) (hbound : page < 2 ^ 52)
    (hgrow : Grow new S (insert v S) (missing m.mem new {v})
      (Function.update (entry m.mem new) v (pa2pte page ||| pteFlags (entry m.mem old v))) m m₁)
    (hcount : m.free.length = m₁.free.length + 1 + (missing m.mem new {v}).card)
    (hcopy : m₁.mem page = m.mem (pte2pa (entry m.mem old v)))
    (hrest : Duplicated old new (insert v S) (v + 1) n map m₁ m') :
    Duplicated old new S v (n + 1) map m m' := by
  have hlast := h.last
  obtain ⟨hframe, hpages⟩ := h.frame hgrow
  have hsource := entry_frame hframe
  have hlength := hrest.count
  have hboth := hgrow.trans hrest.toGrow
  obtain ⟨hunion, hsum⟩ := hgrow.toAdds.missing_card (Finset.Ico (v + 1) (v + 1 + n))
  rw [insert_union_Ico, ← hunion, ← Ico_split] at hboth
  refine ⟨hboth, ?_, ?_, ?_⟩
  · rw [Ico_split, hsum]
    omega
  · intro vpn hvpn hnotin
    rw [Set.mem_Ico] at hnotin
    rw [hrest.outside vpn hvpn (by rw [Set.mem_Ico]; omega), entry_ne hgrow hvpn (by omega)]
  · intro vpn hvpn
    by_cases heq : vpn = v
    · subst heq
      have hentry : entry m₁.mem new vpn = pa2pte page ||| pteFlags (entry m.mem old vpn) := by
        rw [hgrow.entry_eq vpn (by omega), Function.update_self]
      have htarget : pte2pa (entry m₁.mem new vpn) = page := by
        rw [hentry]
        exact pte2pa_entry hbound (pteFlags_toNat _)
      -- The page copied first stays as it is while the others are copied.
      have hkeep := hrest.keep vpn (Or.inl rfl)
      rw [htarget] at hkeep
      rw [hrest.outside vpn (by omega) (by rw [Set.mem_Ico]; omega), htarget, hkeep, hcopy, hentry]
      exact ⟨pteFlags_entry hbound (pteFlags_idem _), rfl⟩
    · rw [Set.mem_Ico] at hvpn
      obtain ⟨hflags, hcontent⟩ := hrest.copies vpn (by rw [Set.mem_Ico]; omega)
      rw [hflags, hcontent, hsource]
      exact ⟨rfl, hpages vpn hvpn⟩

/-- A page that is copied and given back with the others. -/
theorem Unduplicated.cons (h : Duplicating old new S v (n + 1) m)
    (hgrow : Grow new S (insert v S) (missing m.mem new {v})
      (Function.update (entry m.mem new) v word) m m₁)
    (hcount : m.free.length = m₁.free.length + 1 + (missing m.mem new {v}).card)
    (hrest : Unduplicated new (insert v S) (v + 1) n added m₁ m') :
    Unduplicated new S v (n + 1) (missing m.mem new {v} ∪ added) m m' := by
  have hzero := h.vacant v (by omega) (by omega)
  have hnotin : v ∉ S := by
    intro hmem
    have hmapped := h.space.mapped v hmem
    rw [hzero] at hmapped
    exact not_valid_zero hmapped
  have hlength := hrest.count
  have hshort := hrest.short
  have hboth := hgrow.toChange.trans hrest.toChange
  rw [insert_sdiff_Ico (Nat.zero_le v) hnotin] at hboth
  obtain ⟨-, hsum⟩ := hgrow.toAdds.missing_card (Finset.Ico (v + 1) (v + 1 + n))
  refine ⟨hboth.congr ?_, ?_, ?_⟩
  · intro vpn hvpn
    exact clearMap_cons hzero fun hne => entry_ne hgrow hvpn hne
  · rw [Finset.card_union_of_disjoint (hgrow.toAdds.disjoint hrest.toAdds)]
    omega
  · rw [Ico_split, hsum]
    omega

end Turn

/-- The loop of `uvmcopy` over `n` pages from `v` on.  Every page gets a copy of
its own; when there are no pages left, everything below is given back. -/
theorem uvmcopyLoop_spec {n v : ℕ} {m : Machine} {S : Set ℕ} (h : Duplicating old new S v n m) :
    (∃ m' map, uvmcopyLoop old new n (4096 * v) m = .ok (true, m') ∧
      Duplicated old new S v n map m m') ∨
    (∃ m' added, uvmcopyLoop old new n (4096 * v) m = .ok (false, m') ∧
      Unduplicated new S v n added m m') := by
  induction n generalizing v m S with
  | zero =>
      have hnone : Set.Ico v (v + 0) = ∅ := Set.Ico_eq_empty (by omega)
      have hmissing : missing m.mem new (Finset.Ico v (v + 0)) = ∅ := by simp [missing]
      refine Or.inl ⟨m, entry m.mem new, rfl, ?_, ?_, fun _ _ _ => rfl, by simp⟩
      · rw [hnone, Set.union_empty, hmissing]
        exact Grow.refl h.space h.apart
      · rw [hmissing]
        rfl
  | succ n ih =>
      have hlast := h.last
      have hnot : ¬ Valid (entry m.mem new v) := by
        rw [h.vacant v (by omega) (by omega)]
        exact not_valid_zero
      have hsource : pte2pa (entry m.mem old v) ∉ m.free :=
        (h.away _ (Or.inr ⟨v, ⟨le_refl v, by omega⟩, rfl⟩)).2
      rcases uvmcopyLoop_turn h.space h.apart h.source (by omega)
          (h.valid v (by omega) (by omega)) hnot with
        ⟨page, m₁, hstep, hbound, hgrow, hcount, hcopy⟩ | ⟨m₁, added, hstep, hback, hcount, hcard⟩
      · rw [hstep]
        rcases ih (h.next hgrow) with ⟨m', map, hloop, hrest⟩ | ⟨m', added', hloop, hrest⟩
        · exact Or.inl ⟨m', map, hloop, hrest.cons h hbound hgrow hcount (hcopy hsource)⟩
        · exact Or.inr ⟨m', _, hloop, hrest.cons h hgrow hcount⟩
      · obtain ⟨m', hunmap, hlength, hchange⟩ := uvmunmap_free (show 0 = 0 * 4096 by rfl)
          hback.space (hback.apart h.apart) (show ∀ vpn, 0 ≤ vpn → vpn < 0 + v → vpn ∈ S from
            fun vpn _ hvpn => h.done vpn (by omega))
        rw [Nat.zero_add] at hchange
        have hboth := hback.trans hchange
        rw [Finset.union_empty] at hboth
        refine Or.inr ⟨m', added, ?_, hboth.congr ?_, by omega, ?_⟩
        · rw [hstep, hunmap]
          rfl
        · intro vpn hvpn
          simp only [clearMap, hback.entry_eq vpn hvpn]
        · have hle := card_missing_le m.mem new {v} (Finset.Ico (v + 1) (v + 1 + n))
          rw [Ico_split]
          omega

/-- `uvmcopy` of `sz` bytes into a table that owns nothing yet. -/
theorem uvmcopy_spec {m : Machine} {sz : ℕ} (hnew : Space m.mem new ∅)
    (hapart : Apart m (held m.mem new ∅)) (hold : Table m.mem old)
    (haway : Away (tables m.mem old ∪ targets m.mem old (Set.Iio (pages sz)))
      (held m.mem new ∅) m) (hend : sz ≤ 2 ^ 38)
    (hvalid : ∀ vpn, vpn < pages sz → Valid (entry m.mem old vpn))
    (hvacant : ∀ vpn, vpn < pages sz → entry m.mem new vpn = 0) :
    (∃ m' map, uvmcopy m old new sz = .ok (true, m') ∧
      Change new ∅ (Set.Iio (pages sz)) (missing m.mem new (Finset.range (pages sz))) map m m' ∧
      m.free.length = m'.free.length + pages sz
        + (missing m.mem new (Finset.range (pages sz))).card ∧
      (∀ vpn, vpn < 2 ^ 26 → pages sz ≤ vpn → map vpn = entry m.mem new vpn) ∧
      ∀ vpn, vpn < pages sz → pteFlags (map vpn) = pteFlags (entry m.mem old vpn) ∧
        m'.mem (pte2pa (map vpn)) = m.mem (pte2pa (entry m.mem old vpn))) ∨
    (∃ m' added, uvmcopy m old new sz = .ok (false, m') ∧
      Change new ∅ ∅ added (entry m.mem new) m m' ∧
      m'.free.length + added.card = m.free.length ∧
      m.free.length < pages sz + (missing m.mem new (Finset.range (pages sz))).card) := by
  have hIco : Set.Ico 0 (0 + pages sz) = Set.Iio (pages sz) := by
    ext vpn
    simp
  have hrange : Finset.Ico 0 (0 + pages sz) = Finset.range (pages sz) := by
    ext vpn
    simp
  have hlast : pages sz ≤ 2 ^ 26 := by
    rw [pages]
    omega
  have hcopying : Duplicating old new ∅ 0 (pages sz) m :=
    ⟨hnew, hapart, hold, by rwa [hIco], by omega, fun vpn _ hvpn => hvalid vpn (by omega),
      fun vpn _ hvpn => hvacant vpn (by omega), by omega⟩
  rcases uvmcopyLoop_spec hcopying with ⟨m', map, hloop, h⟩ | ⟨m', added, hloop, h⟩
  · have hchange := h.toChange
    have hcount := h.count
    have hcopies := h.copies
    rw [hIco] at hcopies
    rw [hIco, hrange, Set.empty_union] at hchange
    rw [hrange] at hcount
    refine Or.inl ⟨m', map, hloop, hchange, hcount, ?_, hcopies⟩
    intro vpn hvpn hle
    exact h.outside vpn hvpn (by rw [Set.mem_Ico]; omega)
  · have hchange := h.toChange
    have hshort := h.short
    rw [Set.empty_sdiff, clearMap_zero] at hchange
    rw [hrange] at hshort
    exact Or.inr ⟨m', added, hloop, hchange, h.count, hshort⟩

end Uvmcopy

end OperateSystem.Vm

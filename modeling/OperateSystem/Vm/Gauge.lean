import OperateSystem.Vm.Image

/-!
# What a file takes

Whether the loader of `exec` accepts a file can be read off its headers, and so can the size
of the image.  With the size goes the number of free pages that the image and its page table
take: with that many the loader passes, with fewer it does not.
-/

namespace OperateSystem.Vm

open OperateSystem.PointerTree

/-- The size of the image after a segment of the file, unless `exec` refuses it. -/
def segmentSize (ip : Inode) (ph : ProgHdr) (sz : ℕ) : Option ℕ :=
  if ph.type ≠ elfProgLoad then some sz
  else if ph.memsz < ph.filesz ∨ 2 ^ 64 ≤ ph.vaddr + ph.memsz ∨ ph.vaddr % pgSize ≠ 0
      ∨ max sz (ph.vaddr + ph.memsz) = 0 then none
  else if delivers ip (u32 ph.off) (u32 ph.filesz) ((u32 ph.filesz + (pgSize - 1)) / pgSize) 0 then
    some (max sz (ph.vaddr + ph.memsz))
  else none

/-- The size of the image after the program headers from offset `off` on. -/
def segmentsSize (ip : Inode) : (phnum off sz : ℕ) → Option ℕ
  | 0, _, sz => some sz
  | phnum + 1, off, sz =>
      if (ip.readi off phSize).length ≠ phSize then none
      else (segmentSize ip (proghdr (ip.readi off phSize)) sz).bind
        (segmentsSize ip phnum (u32 (off + phSize)))

/-- The size of the image of a file, unless `exec` refuses the file. -/
def imageSize (ip : Inode) : Option ℕ :=
  segmentsSize ip (elfhdr (ip.readi 0 elfSize)).phnum (u32 (elfhdr (ip.readi 0 elfSize)).phoff) 0

/-- What a user page table with `n` pages takes from the free list: the pages, the root and
the tables below it. -/
def imageCost (n : ℕ) : ℕ := 1 + (tablesFor (topVpns ∪ Finset.range n)).card + n

/-- There are an address space and free pages for `n` pages of user memory. -/
def Affords (m : Machine) (n : ℕ) : Prop := n ≤ trapframe ∧ imageCost n ≤ m.free.length

/-- Since `m₀` a page table with `n` pages has been made, and nothing else. -/
structure Tight (m₀ m : Machine) (root n : ℕ) : Prop where
  count : m₀.free.length = m.free.length + imageCost n
  missing_eq : ∀ vpns, missing m.mem root vpns
    = tablesFor vpns \ tablesFor (topVpns ∪ Finset.range n)

section Tight

variable {m₀ m m' : Machine} {root n n' : ℕ}

theorem tablesFor_range (hle : n ≤ n') : tablesFor (topVpns ∪ Finset.range n')
    = tablesFor (topVpns ∪ Finset.range n) ∪ tablesFor (Finset.Ico n n') := by
  rw [← tablesFor_union, Finset.union_assoc, Finset.range_eq_Ico, Finset.range_eq_Ico,
    Finset.Ico_union_Ico_eq_Ico (Nat.zero_le n) hle]

/-- More pages take the tables that are missing. -/
theorem Tight.need (h : Tight m₀ m root n) (hle : n ≤ n') :
    imageCost n + ((n' - n) + (missing m.mem root (Finset.Ico n n')).card) = imageCost n' := by
  have hcard := Finset.card_sdiff_add_card (tablesFor (Finset.Ico n n'))
    (tablesFor (topVpns ∪ Finset.range n))
  rw [Finset.union_comm (tablesFor _), ← tablesFor_range hle, ← h.missing_eq] at hcard
  rw [imageCost, imageCost]
  omega

theorem Tight.grow (h : Tight m₀ m root n) (hle : n ≤ n')
    (hcount : m.free.length
      = m'.free.length + ((n' - n) + (missing m.mem root (Finset.Ico n n')).card))
    (hadds : Adds root (missing m.mem root (Finset.Ico n n')) m.mem m'.mem) :
    Tight m₀ m' root n' := by
  have hneed := h.need hle
  have hbefore := h.count
  refine ⟨by omega, ?_⟩
  intro vpns
  rw [hadds.missing_eq, h.missing_eq, h.missing_eq, sdiff_sdiff_left, Finset.sup_eq_union,
    Finset.union_sdiff_self_eq_union, tablesFor_range hle]

theorem Tight.frame (h : Tight m₀ m root n) (hfree : m'.free = m.free)
    (hframe : ∀ page ∈ tables m.mem root, m'.mem page = m.mem page) : Tight m₀ m' root n := by
  refine ⟨?_, ?_⟩
  · rw [hfree]
    exact h.count
  · intro vpns
    rw [missing_frame hframe, h.missing_eq]

/-- `proc_pagetable` has made a page table without pages. -/
theorem Built.tight {map : ℕ → Word} (h : Built root topVpns map m₀ m) : Tight m₀ m root 0 := by
  have hnone : topVpns ∪ Finset.range 0 = topVpns := Finset.union_empty _
  refine ⟨?_, ?_⟩
  · rw [imageCost, hnone, h.count]
    omega
  · rw [hnone]
    exact h.missing_eq

theorem imageCost_mono (hle : n ≤ n') : imageCost n ≤ imageCost n' := by
  have hsub : tablesFor (topVpns ∪ Finset.range n) ⊆ tablesFor (topVpns ∪ Finset.range n') := by
    rw [tablesFor_range hle]
    exact Finset.subset_union_left
  have hcard := Finset.card_le_card hsub
  rw [imageCost, imageCost]
  omega

theorem Affords.mono (h : Affords m n') (hle : n ≤ n') : Affords m n :=
  ⟨hle.trans h.1, (imageCost_mono hle).trans h.2⟩

end Tight

/-- A stage of the loader is passed exactly when the file has a size up to there and there is
room for it. -/
structure Gauged (m₀ : Machine) (root : ℕ) (size : Option ℕ)
    (result : Except Fault (Bool × ℕ × Machine)) : Prop where
  passed : ∀ sz m, result = .ok (true, sz, m) → size = some sz ∧ Tight m₀ m root (pages sz)
  passes : ∀ sz, size = some sz → Affords m₀ (pages sz) → ∃ m, result = .ok (true, sz, m)

section Loader

variable {L : Layout} {m₀ m : Machine} {frame root sz : ℕ}

/-- `uvmalloc` grows the image exactly when there is room for it. -/
theorem Tight.uvmalloc (h : Image L m₀ m frame root sz ∅) (ht : Tight m₀ m root (pages sz))
    (newsz : ℕ) :
    (∃ m', uvmalloc m root sz newsz = .ok (max sz newsz, m') ∧
      Image L m₀ m' frame root (max sz newsz) ∅ ∧ Tight m₀ m' root (pages (max sz newsz))) ∨
    (¬ Affords m₀ (pages (max sz newsz)) ∧
      ∀ n m', uvmalloc m root sz newsz = .ok (n, m') → n = 0) := by
  have hpages := pages_mono (Nat.le_max_left sz newsz)
  have hneed := ht.need hpages
  have hcount := ht.count
  rcases h.uvmalloc newsz with ⟨m', halloc, h', hlength, hadds⟩ | ⟨m', halloc, -, hle, hshort⟩ |
    ⟨-, hlarge, e, halloc⟩
  · exact Or.inl ⟨m', halloc, h', ht.grow hpages hlength hadds⟩
  · right
    rw [Nat.max_eq_right hle] at hneed ⊢
    refine ⟨?_, ?_⟩
    · rintro ⟨htop, henough⟩
      have hfew := hshort htop
      rw [userNeed, newVpns] at hfew
      omega
    · intro n m'' heq
      rw [halloc] at heq
      cases heq
      rfl
  · right
    have hle := pages_mono (Nat.le_max_right sz newsz)
    refine ⟨fun hroom => absurd hroom.1 (by omega), ?_⟩
    intro n m' heq
    rw [halloc] at heq
    cases heq

theorem Gauged.refused {sz' : ℕ} {m' : Machine} : Gauged m₀ root none (.ok (false, sz', m')) :=
  ⟨fun _ _ heq => (by cases heq), fun _ heq => (by cases heq)⟩

theorem Gauged.accepted {m' : Machine} (h : Tight m₀ m' root (pages sz)) :
    Gauged m₀ root (some sz) (.ok (true, sz, m')) := by
  refine ⟨?_, ?_⟩
  · intro sz' m'' heq
    cases heq
    exact ⟨rfl, h⟩
  · intro sz' heq _
    cases heq
    exact ⟨m', rfl⟩

/-- A turn of the loop over the program headers. -/
theorem Tight.execSegment (ip : Inode) {ph : ProgHdr} (hvaddr : ph.vaddr < 2 ^ 64)
    (hmemsz : ph.memsz < 2 ^ 64) (h : Image L m₀ m frame root sz ∅)
    (ht : Tight m₀ m root (pages sz)) :
    Gauged m₀ root (segmentSize ip ph sz) (execSegment m root ip ph sz) := by
  rw [segmentSize, Vm.execSegment]
  by_cases htype : ph.type ≠ elfProgLoad
  · rw [if_pos htype, if_pos htype]
    exact Gauged.accepted ht
  rw [if_neg htype, if_neg htype]
  by_cases hfilesz : ph.memsz < ph.filesz
  · rw [if_pos (Or.inl hfilesz), if_pos hfilesz]
    exact Gauged.refused
  by_cases hwrap : 2 ^ 64 ≤ ph.vaddr + ph.memsz
  · rw [if_pos (Or.inr (Or.inl hwrap)), if_neg hfilesz, if_pos (by rw [u64]; omega)]
    exact Gauged.refused
  have hsum : u64 ((ph.vaddr : Int) + ph.memsz) = ph.vaddr + ph.memsz := by
    rw [u64]
    omega
  rw [if_neg hfilesz, hsum, if_neg (show ¬ ph.vaddr + ph.memsz < ph.vaddr by omega)]
  rcases ht.uvmalloc h (ph.vaddr + ph.memsz) with ⟨m₁, halloc, h₁, ht₁⟩ | ⟨hroom, hzero⟩
  · rw [halloc, ok_bind]
    dsimp only
    by_cases hnone : max sz (ph.vaddr + ph.memsz) = 0
    · rw [if_pos (Or.inr (Or.inr (Or.inr hnone))), if_pos hnone]
      exact Gauged.refused
    by_cases hva : ph.vaddr % pgSize ≠ 0
    · rw [if_pos (Or.inr (Or.inr (Or.inl hva))), if_neg hnone, if_pos hva]
      exact Gauged.refused
    have hsmall : u32 ph.filesz ≤ ph.filesz := by
      rw [u32]
      omega
    obtain ⟨m₂, hload, -, hfree, hsame⟩ := h₁.loadseg ip (not_not.mp hva)
      (show ph.vaddr + u32 ph.filesz ≤ max sz (ph.vaddr + ph.memsz) by omega)
    rw [if_neg (by tauto), if_neg hnone, if_neg hva, hload, ok_bind]
    cases delivers ip (u32 ph.off) (u32 ph.filesz) ((u32 ph.filesz + (pgSize - 1)) / pgSize) 0 with
    | true => exact Gauged.accepted (ht₁.frame hfree hsame)
    | false => exact Gauged.refused
  · -- Without room the loop ends here, whatever the file says.
    refine ⟨?_, ?_⟩
    · intro sz' m' heq
      cases halloc : Vm.uvmalloc m root sz (ph.vaddr + ph.memsz) with
      | error e =>
          rw [halloc] at heq
          cases heq
      | ok result =>
          obtain ⟨n, m₁⟩ := result
          rw [halloc, ok_bind] at heq
          dsimp only at heq
          rw [if_pos (hzero n m₁ halloc)] at heq
          cases heq
    · intro sz' heq haffords
      split at heq
      · cases heq
      · split at heq
        · cases heq
          exact absurd haffords hroom
        · cases heq

theorem segmentSize_le {ip : Inode} {ph : ProgHdr} {sz' : ℕ}
    (h : segmentSize ip ph sz = some sz') : sz ≤ sz' := by
  rw [segmentSize] at h
  split at h
  · cases h
    exact le_refl _
  · split at h
    · cases h
    · split at h
      · cases h
        exact Nat.le_max_left _ _
      · cases h

theorem segmentsSize_le {ip : Inode} {phnum off sz' : ℕ}
    (h : segmentsSize ip phnum off sz = some sz') : sz ≤ sz' := by
  induction phnum generalizing off sz with
  | zero =>
      cases h
      exact le_refl _
  | succ phnum ih =>
      rw [segmentsSize] at h
      split at h
      · cases h
      · obtain ⟨sz₁, hsegment, hrest⟩ := Option.bind_eq_some_iff.mp h
        exact (segmentSize_le hsegment).trans (ih hrest)

/-- The loop over the program headers. -/
theorem Tight.execLoad (ip : Inode) (phnum off : ℕ) (h : Image L m₀ m frame root sz ∅)
    (ht : Tight m₀ m root (pages sz)) :
    Gauged m₀ root (segmentsSize ip phnum off sz) (execLoad root ip phnum off sz m) := by
  induction phnum generalizing off sz m with
  | zero => exact Gauged.accepted ht
  | succ phnum ih =>
      rw [segmentsSize, Vm.execLoad]
      by_cases hlength : (ip.readi off phSize).length ≠ phSize
      · rw [if_pos hlength, if_pos hlength]
        exact Gauged.refused
      rw [if_neg hlength, if_neg hlength]
      have hvaddr : (proghdr (ip.readi off phSize)).vaddr < 2 ^ 64 := field_lt _ 16 8
      have hmemsz : (proghdr (ip.readi off phSize)).memsz < 2 ^ 64 := field_lt _ 40 8
      have hloads := h.execSegment ip hvaddr hmemsz
      have hgauged := ht.execSegment ip hvaddr hmemsz h
      refine ⟨?_, ?_⟩
      · intro sz' m' heq
        cases hturn : Vm.execSegment m root ip (proghdr (ip.readi off phSize)) sz with
        | error e =>
            rw [hturn] at heq
            cases heq
        | ok result =>
            obtain ⟨ok, sz₁, m₁⟩ := result
            rw [hturn, ok_bind] at heq
            rw [hturn] at hloads
            cases ok with
            | false => cases heq
            | true =>
                obtain ⟨hsize, ht₁⟩ := hgauged.passed sz₁ m₁ hturn
                rw [hsize]
                exact (ih _ hloads ht₁).passed sz' m' heq
      · intro sz' hsize haffords
        obtain ⟨sz₁, hsegment, hrest⟩ := Option.bind_eq_some_iff.mp hsize
        obtain ⟨m₁, hturn⟩ := hgauged.passes sz₁ hsegment
          (haffords.mono (pages_mono (segmentsSize_le hrest)))
        rw [hturn] at hloads
        rw [hturn, ok_bind]
        exact (ih _ hloads (hgauged.passed sz₁ m₁ hturn).2).passes sz' hrest haffords

end Loader

section Start

variable {L : Layout} {m : Machine} {p : Proc} {frame user kern : ℕ}

theorem procPagetable_ready {root : ℕ} {m₁ : Machine} (hlive : Live L m p frame user kern)
    (hapart : Apart m (owned m p))
    (hnull : 0 ∉ m.free) (htable : procPagetable L m frame = .ok (some root, m₁)) :
    Image L m m₁ frame root 0 ∅ ∧ Tight m m₁ root (pages 0) := by
  have hbase := hapart.mono (Set.empty_subset _)
  rcases procPagetable_spec L hbase hlive.frame_lt with
    ⟨root', m₁', htable', hbuilt⟩ | ⟨m₁', htable', -, -⟩
  · rw [htable'] at htable
    cases htable
    exact ⟨hbuilt.image hbase hnull hlive.frame_lt, hbuilt.tight⟩
  · rw [htable'] at htable
    cases htable

end Start

end OperateSystem.Vm

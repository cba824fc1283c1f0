import OperateSystem.Vm.Access
import OperateSystem.Vm.Exec
import OperateSystem.Vm.Growproc

/-!
# Loading a program

While `exec` fills a new user page table, the table maps a prefix of the address
space, the trapframe and the trampoline, whatever the file asks for: `uvmalloc`
grows the prefix or leaves it alone, and everything else writes to its pages only.
The pages come from the free list that `exec` has found, so a prefix longer than
that list cannot come about.
-/

namespace OperateSystem.Vm

open OperateSystem.PointerTree

/-- The new user memory of `sz` bytes, made from the free pages of `m₀`.  The user may
use its pages but for those at `guard`. -/
structure Image (L : Layout) (m₀ m : Machine) (frame root sz : ℕ) (guard : Set ℕ) : Prop where
  base : Apart m₀ ∅
  nonnull : 0 ∉ m₀.free
  frame_lt : frame < 2 ^ 52
  space : Space m.mem root (Set.Iio (pages sz))
  top : pages sz ≤ trapframe
  rest : ∀ vpn, pages sz ≤ vpn → vpn < 2 ^ 26 → entry m.mem root vpn = userMap L frame vpn
  moves : Moves ∅ (held m.mem root (Set.Iio (pages sz))) m₀ m
  count : m.free.length + pages sz ≤ m₀.free.length
  flags : ∀ vpn, vpn < pages sz → pteFlags (entry m.mem root vpn) ||| pteU = userPerm ||| pteV
  guarded : ∀ vpn, vpn < pages sz → (entry m.mem root vpn &&& pteU = 0 ↔ vpn ∈ guard)

section Image

variable {L : Layout} {m₀ m m' : Machine} {frame root sz sz' : ℕ} {guard guard' : Set ℕ}

theorem Image.apart (h : Image L m₀ m frame root sz guard) :
    Apart m (held m.mem root (Set.Iio (pages sz))) :=
  h.moves.keeps_apart h.base (by simp)

theorem Image.size_lt (h : Image L m₀ m frame root sz guard) : sz ≤ 4096 * trapframe := by
  have htop := h.top
  rw [pages] at htop
  omega

/-- Only the number of pages matters. -/
theorem Image.of_pages_eq (h : Image L m₀ m frame root sz guard) (heq : pages sz' = pages sz) :
    Image L m₀ m frame root sz' guard := by
  obtain ⟨base, nonnull, frame_lt, space, top, rest, moves, count, flags, guarded⟩ := h
  rw [← heq] at space top rest moves count flags guarded
  exact ⟨base, nonnull, frame_lt, space, top, rest, moves, count, flags, guarded⟩

/-- The pages below the size and the two at the top are mapped, and no others. -/
theorem Image.valid_iff (h : Image L m₀ m frame root sz guard) {vpn : ℕ} (hvpn : vpn < 2 ^ 26) :
    Valid (entry m.mem root vpn) ↔ vpn < pages sz ∨ vpn = trapframe ∨ vpn = trampoline := by
  by_cases hlt : vpn < pages sz
  · exact iff_of_true (h.space.mapped vpn hlt) (Or.inl hlt)
  · rw [h.rest vpn (by omega) hvpn, userMap]
    by_cases hframe : vpn = trapframe
    · rw [if_pos hframe]
      exact iff_of_true (valid_entry _ _) (Or.inr (Or.inl hframe))
    · by_cases htramp : vpn = trampoline
      · rw [if_neg hframe, if_pos htramp]
        exact iff_of_true (valid_entry _ _) (Or.inr (Or.inr htramp))
      · rw [if_neg hframe, if_neg htramp]
        exact iff_of_false not_valid_zero (by tauto)

/-- `proc_pagetable` makes an empty image. -/
theorem Built.image (h : Built root topVpns (userMap L frame) m₀ m) (hbase : Apart m₀ ∅)
    (hnull : 0 ∉ m₀.free) (hframe : frame < 2 ^ 52) : Image L m₀ m frame root 0 ∅ := by
  have hnone : pages 0 = 0 := rfl
  have hcount := h.count
  refine ⟨hbase, hnull, hframe, ?_, Nat.zero_le _, fun vpn _ hvpn => h.entry_eq vpn hvpn,
    ?_, ?_, ?_, ?_⟩
  · rw [Iio_pages_zero]
    exact Space.of_table h.table
  · rw [Iio_pages_zero, held_empty]
    exact h.moves
  · omega
  · intro vpn hvpn
    omega
  · intro vpn hvpn
    omega

/-- A change of the space that leaves the top of the table alone. -/
theorem Image.change {added : Finset (List (Fin 512))} {map : ℕ → Word}
    (h : Image L m₀ m frame root sz guard)
    (hchange : Change root (Set.Iio (pages sz)) (Set.Iio (pages sz')) added map m m')
    (htop : pages sz' ≤ trapframe) (hcount : m'.free.length + pages sz' ≤ m₀.free.length)
    (hrest : ∀ vpn, pages sz' ≤ vpn → vpn < 2 ^ 26 → map vpn = userMap L frame vpn)
    (hflags : ∀ vpn, vpn < pages sz' → pteFlags (map vpn) ||| pteU = userPerm ||| pteV)
    (hguarded : ∀ vpn, vpn < pages sz' → (map vpn &&& pteU = 0 ↔ vpn ∈ guard')) :
    Image L m₀ m' frame root sz' guard' := by
  have hlast : trapframe < 2 ^ 26 := by decide
  refine ⟨h.base, h.nonnull, h.frame_lt, hchange.space, htop, ?_, h.moves.trans hchange.moves,
    hcount, ?_, ?_⟩
  · intro vpn hlo hhi
    rw [hchange.entry_eq vpn hhi]
    exact hrest vpn hlo hhi
  · intro vpn hvpn
    rw [hchange.entry_eq vpn (by omega)]
    exact hflags vpn hvpn
  · intro vpn hvpn
    rw [hchange.entry_eq vpn (by omega)]
    exact hguarded vpn hvpn

/-- `uvmalloc` grows the image, or leaves it as it is.  It panics only when there are
more free pages than an address space can hold. -/
theorem Image.uvmalloc (h : Image L m₀ m frame root sz ∅) (newsz : ℕ) :
    (∃ m', uvmalloc m root sz newsz = .ok (max sz newsz, m') ∧
      Image L m₀ m' frame root (max sz newsz) ∅ ∧
      m.free.length = m'.free.length + userNeed m root sz (max sz newsz) ∧
      Adds root (missing m.mem root (newVpns sz (max sz newsz))) m.mem m'.mem) ∨
    (∃ m', uvmalloc m root sz newsz = .ok (0, m') ∧ Image L m₀ m' frame root sz ∅ ∧ sz ≤ newsz ∧
      (pages newsz ≤ trapframe → m.free.length < userNeed m root sz newsz)) ∨
    (trapframe < m₀.free.length ∧ trapframe < pages newsz ∧
      ∃ e, uvmalloc m root sz newsz = .error e) := by
  have hcount := h.count
  by_cases hlt : newsz < sz
  · have hnone : newVpns sz sz = ∅ := Finset.Ico_self _
    rw [Nat.max_eq_left hlt.le]
    refine Or.inl ⟨m, ?_, h, ?_, ?_⟩
    · rw [Vm.uvmalloc, if_pos hlt]
    · rw [userNeed, hnone, Nat.sub_self]
      rfl
    · rw [hnone]
      exact Adds.of_node_eq fun _ _ => rfl
  · have hle : sz ≤ newsz := by omega
    have hpages := pages_mono hle
    rw [Nat.max_eq_right hle]
    rcases uvmalloc_below h.space h.apart hle h.top (by decide)
      (fun vpn hlo hhi => by
        rw [h.rest vpn hlo (hhi.trans (by decide)), userMap_low L hhi])
      (by
        rw [h.valid_iff (by decide)]
        exact Or.inr (Or.inl rfl)) with
      ⟨m', map, halloc, htop, hgrow, hlength, hout, hin⟩ |
      ⟨m', added, halloc, hchange, hlength, hshort⟩ |
      ⟨hmany, hlarge, e, halloc⟩
    · refine Or.inl ⟨m', halloc, h.change hgrow.toChange htop (by omega) ?_ ?_ ?_, ?_,
        hgrow.toAdds⟩
      · intro vpn hlo hhi
        rw [hout vpn hhi (fun hmem => absurd hmem.2 (by omega))]
        exact h.rest vpn (by omega) hhi
      · intro vpn hvpn
        by_cases hold : vpn < pages sz
        · rw [hgrow.same vpn hold]
          exact h.flags vpn hold
        · rw [hin vpn ⟨by omega, hvpn⟩]
          decide
      · intro vpn hvpn
        by_cases hold : vpn < pages sz
        · rw [hgrow.same vpn hold]
          exact h.guarded vpn hold
        · exact iff_of_false (user_of_flags (hin vpn ⟨by omega, hvpn⟩)) (Set.notMem_empty vpn)
      · rw [hlength, Nat.add_assoc]
        rfl
    · exact Or.inr (Or.inl ⟨m', halloc,
        h.change hchange h.top (by omega) h.rest h.flags h.guarded, hle, hshort⟩)
    · exact Or.inr (Or.inr ⟨by omega, hlarge, e, halloc⟩)

/-- Writing to the pages of the image leaves the image alone. -/
theorem Image.writes (h : Image L m₀ m frame root sz guard) (hfree : m'.free = m.free)
    (hframe : ∀ page, page ∉ targets m.mem root (Set.Iio (pages sz)) → m'.mem page = m.mem page) :
    Image L m₀ m' frame root sz guard := by
  have hcount : m'.free.length + pages sz ≤ m₀.free.length := by
    rw [hfree]
    exact h.count
  exact h.change (h.space.touch h.apart hfree hframe) h.top hcount h.rest h.flags h.guarded

theorem Image.write (h : Image L m₀ m frame root sz guard) {page : ℕ}
    (hpage : page ∈ targets m.mem root (Set.Iio (pages sz))) (ofs : ℕ) (bytes : List (BitVec 8)) :
    Image L m₀ (m.write page ofs bytes) frame root sz guard := by
  apply h.writes (write_free ofs bytes)
  intro other hother
  apply write_of_ne
  rintro rfl
  exact hother hpage

/-- The pages of an image come from the free list, so none of them is at the address 0. -/
theorem Image.target_ne_zero (h : Image L m₀ m frame root sz guard) {vpn : ℕ}
    (hvpn : vpn < pages sz) : pte2pa (entry m.mem root vpn) ≠ 0 := by
  intro hzero
  exact (h.moves.absent (Set.notMem_empty 0) h.nonnull).1 (Or.inr ⟨vpn, hvpn, hzero⟩)

/-- `walkaddr` finds the pages of the image that the user may use. -/
theorem Image.walkaddr_open (h : Image L m₀ m frame root sz guard) {vpn ofs : ℕ}
    (hvpn : vpn < pages sz) (hofs : ofs < 4096) (hopen : vpn ∉ guard) :
    walkaddr m root (4096 * vpn + ofs) = .ok (some (pte2pa (entry m.mem root vpn))) := by
  have htop := h.top
  have hlast : trapframe < 2 ^ 26 := by decide
  rw [walkaddr_eq (by omega) hofs, if_pos ⟨h.space.mapped vpn hvpn,
    fun hclear => hopen ((h.guarded vpn hvpn).mp hclear), h.target_ne_zero hvpn⟩]

/-- The user may not use the trapframe and the trampoline. -/
theorem userMap_not_user (hframe : frame < 2 ^ 52) (vpn : ℕ) :
    userMap L frame vpn &&& pteU = 0 := by
  have htramp : L.trampolinePa < 2 ^ 52 := by
    have := L.trampolinePa_lt
    have := L.phystop_lt
    omega
  rw [userMap]
  split
  · rw [BitVec.or_assoc, entry_and hframe (by decide)]
    decide
  · split
    · rw [BitVec.or_assoc, entry_and htramp (by decide)]
      decide
    · decide

/-- `walkaddr` finds pages of the space only. -/
theorem walkaddr_cases (hframe : frame < 2 ^ 52) (hrest : ∀ vpn, pages sz ≤ vpn → vpn < 2 ^ 26 →
    entry m.mem root vpn = userMap L frame vpn) (va : ℕ) :
    walkaddr m root va = .ok none ∨ va / 4096 < pages sz ∧
      ∃ page ∈ targets m.mem root (Set.Iio (pages sz)), walkaddr m root va = .ok (some page) := by
  by_cases hva : maxVa ≤ va
  · exact Or.inl (walkaddr_high hva)
  · have hvpn : va / 4096 < 2 ^ 26 := by
      rw [maxVa] at hva
      omega
    have hsplit : va = 4096 * (va / 4096) + va % 4096 := (Nat.div_add_mod va 4096).symm
    rw [hsplit, walkaddr_eq hvpn (Nat.mod_lt _ (by decide))]
    by_cases hlt : va / 4096 < pages sz
    · split
      · refine Or.inr ⟨?_, _, ⟨va / 4096, hlt, rfl⟩, rfl⟩
        rw [← hsplit]
        exact hlt
      · exact Or.inl rfl
    · left
      rw [if_neg]
      rintro ⟨-, huser, -⟩
      apply huser
      rw [hrest _ (by omega) hvpn]
      exact userMap_not_user hframe _

/-- `copyout` to any address writes to pages of the space only, and fails if there is more to
be written than the space has room for. -/
theorem Space.copyoutLoop {fuel : ℕ} (h : Space m.mem root (Set.Iio (pages sz)))
    (hframe : frame < 2 ^ 52) (hrest : ∀ vpn, pages sz ≤ vpn → vpn < 2 ^ 26 →
      entry m.mem root vpn = userMap L frame vpn) (dstva : ℕ) {src : List (BitVec 8)}
    (hfuel : src.length ≤ fuel) :
    ∃ ok m', copyoutLoop root fuel dstva src m = .ok (ok, m') ∧ m'.free = m.free ∧
      (∀ page, page ∉ targets m.mem root (Set.Iio (pages sz)) → m'.mem page = m.mem page) ∧
      (ok = true → src = [] ∨ dstva + src.length ≤ 4096 * pages sz) := by
  induction fuel generalizing dstva src m with
  | zero =>
      exact ⟨true, m, rfl, rfl, fun _ _ => rfl,
        fun _ => Or.inl (List.length_eq_zero_iff.mp (by omega))⟩
  | succ fuel ih =>
      rw [Vm.copyoutLoop]
      split
      · rename_i hnil
        exact ⟨true, m, rfl, rfl, fun _ _ => rfl, fun _ => Or.inl hnil⟩
      · rename_i hne
        have hpos := List.length_pos_of_ne_nil hne
        have hdown : pgRoundDown dstva = 4096 * (dstva / 4096) := by
          rw [pgRoundDown, pgSize]
          omega
        rcases walkaddr_cases hframe hrest (pgRoundDown dstva) with hwalk |
          ⟨hlt, page, hpage, hwalk⟩
        · simp only [hwalk, ok_bind]
          exact ⟨false, m, rfl, rfl, fun _ _ => rfl, fun hok => by cases hok⟩
        · simp only [hwalk, ok_bind]
          rw [hdown] at hlt ⊢
          rw [pgSize]
          generalize hn : min (4096 - (dstva - 4096 * (dstva / 4096))) src.length = n
          generalize hm₁ : m.write page (dstva - 4096 * (dstva / 4096)) (src.take n) = m₁
          have hother : ∀ other, other ∉ targets m.mem root (Set.Iio (pages sz)) →
              m₁.mem other = m.mem other := by
            intro other hout
            rw [← hm₁]
            apply write_of_ne
            rintro rfl
            exact hout hpage
          have htables : ∀ table ∈ tables m.mem root, m₁.mem table = m.mem table := by
            intro table htable
            apply hother
            rintro ⟨vpn, hvpn, rfl⟩
            exact h.apart vpn hvpn htable
          have hentry := entry_frame htables
          have htargets : targets m₁.mem root (Set.Iio (pages sz))
              = targets m.mem root (Set.Iio (pages sz)) := by
            simp only [targets, hentry]
          have hrest₁ : ∀ vpn, pages sz ≤ vpn → vpn < 2 ^ 26 →
              entry m₁.mem root vpn = userMap L frame vpn := by
            intro vpn hlo hhi
            rw [hentry]
            exact hrest vpn hlo hhi
          obtain ⟨ok, m', hloop, hfree, hsame, hwithin⟩ := ih (h.frame htables) hrest₁
            (4096 * (dstva / 4096) + 4096)
            (show (src.drop n).length ≤ fuel by rw [List.length_drop]; omega)
          refine ⟨ok, m', hloop, ?_, ?_, fun hok => Or.inr ?_⟩
          · rw [hfree, ← hm₁, write_free]
          · intro other hout
            rw [hsame other (by rwa [htargets]), hother other hout]
          · rcases hwithin hok with hnil | hle
            · rw [List.drop_eq_nil_iff] at hnil
              omega
            · rw [List.length_drop] at hle
              omega

end Image

/-- What a step of the loader comes to: an image, or a panic that takes more free pages
than an address space can hold. -/
def Loads (L : Layout) (m₀ : Machine) (frame root : ℕ) :
    Except Fault (Bool × ℕ × Machine) → Prop
  | .ok (_, sz, m) => Image L m₀ m frame root sz ∅
  | .error _ => trapframe < m₀.free.length

section Loader

variable {L : Layout} {m₀ m : Machine} {frame root sz : ℕ} {guard : Set ℕ}

theorem field_lt (bytes : List (BitVec 8)) (ofs n : ℕ) : field bytes ofs n < 256 ^ n := by
  have hfold : ∀ digits : List (BitVec 8),
      digits.foldr (fun byte rest => byte.toNat + 256 * rest) 0 < 256 ^ digits.length := by
    intro digits
    induction digits with
    | nil => simp
    | cons byte digits ih =>
        have hbyte := byte.isLt
        rw [List.foldr_cons, List.length_cons, Nat.pow_succ]
        omega
  calc
    field bytes ofs n < 256 ^ ((bytes.drop ofs).take n).length := hfold _
    _ ≤ 256 ^ n := Nat.pow_le_pow_right (by decide) (by simp)

/-- Whether `readi` gives `loadseg` all the bytes it asks for, over `npages` pages from
offset `i` on. -/
def delivers (ip : Inode) (offset filesz : ℕ) : (npages i : ℕ) → Bool
  | 0, _ => true
  | npages + 1, i =>
      let n := if filesz - i < pgSize then filesz - i else pgSize
      (ip.readi (u32 (offset + i)) n).length == n && delivers ip offset filesz npages (i + pgSize)

/-- The loop of `loadseg` over pages of the image finds all of them, and writes to nothing
else. -/
theorem Image.loadsegLoop (ip : Inode) {va offset filesz npages i : ℕ}
    (h : Image L m₀ m frame root sz ∅) (hva : (va + i) % 4096 = 0)
    (hend : (va + i) / 4096 + npages ≤ pages sz) :
    ∃ m', loadsegLoop ip root va offset filesz npages i m
        = .ok (delivers ip offset filesz npages i, m') ∧
      Image L m₀ m' frame root sz ∅ ∧ m'.free = m.free ∧
      ∀ page ∈ tables m.mem root, m'.mem page = m.mem page := by
  have htop := h.top
  have hlast : trapframe < 2 ^ 26 := by decide
  induction npages generalizing i m with
  | zero => exact ⟨m, rfl, h, rfl, fun _ _ => rfl⟩
  | succ npages ih =>
      have hvpn : (va + i) / 4096 < pages sz := by omega
      have haddr : u64 ((va : Int) + i) = 4096 * ((va + i) / 4096) + 0 := by
        rw [u64]
        omega
      have hwalk := h.walkaddr_open hvpn (show 0 < 4096 by decide) (Set.notMem_empty _)
      rw [Vm.loadsegLoop, haddr, hwalk, delivers]
      simp only [ok_bind]
      generalize (if filesz - i < pgSize then filesz - i else pgSize) = n
      have hwrite := h.write ⟨_, hvpn, rfl⟩ 0 (ip.readi (u32 (offset + i)) n)
      have hsame : ∀ page ∈ tables m.mem root,
          (m.write (pte2pa (entry m.mem root ((va + i) / 4096))) 0
            (ip.readi (u32 (offset + i)) n)).mem page = m.mem page := by
        intro page hpage
        apply write_of_ne
        rintro rfl
        exact h.space.apart _ hvpn hpage
      by_cases hlength : (ip.readi (u32 (offset + i)) n).length = n
      · rw [if_pos hlength, beq_iff_eq.mpr hlength, Bool.true_and]
        obtain ⟨m', hloop, h', hfree, hsame'⟩ := ih (i := i + pgSize) hwrite
          (by rw [pgSize]; omega) (by rw [pgSize]; omega)
        refine ⟨m', hloop, h', hfree.trans (write_free _ _), ?_⟩
        intro page hpage
        rw [hsame' page (by rw [tables_frame hsame]; exact hpage), hsame page hpage]
      · rw [if_neg hlength, beq_eq_false_iff_ne.mpr hlength, Bool.false_and]
        exact ⟨_, rfl, hwrite, write_free _ _, hsame⟩

theorem Image.loadseg (ip : Inode) {va offset filesz : ℕ} (h : Image L m₀ m frame root sz ∅)
    (hva : va % 4096 = 0) (hend : va + filesz ≤ sz) :
    ∃ m', loadseg m root va ip offset filesz
        = .ok (delivers ip offset filesz ((filesz + (pgSize - 1)) / pgSize) 0, m') ∧
      Image L m₀ m' frame root sz ∅ ∧ m'.free = m.free ∧
      ∀ page ∈ tables m.mem root, m'.mem page = m.mem page := by
  rw [Vm.loadseg, if_neg (by rw [pgSize]; omega)]
  apply h.loadsegLoop ip
  · rw [Nat.add_zero]
    exact hva
  · rw [pgSize, pages]
    omega

/-- A turn of the loop over the program headers. -/
theorem Image.execSegment (ip : Inode) {ph : ProgHdr} (hvaddr : ph.vaddr < 2 ^ 64)
    (hmemsz : ph.memsz < 2 ^ 64) (h : Image L m₀ m frame root sz ∅) :
    Loads L m₀ frame root (execSegment m root ip ph sz) := by
  rw [Vm.execSegment]
  split
  · exact h
  · split
    · exact h
    · split
      · exact h
      · rename_i hfilesz hwrap
        have hsum : u64 ((ph.vaddr : Int) + ph.memsz) = ph.vaddr + ph.memsz := by
          rw [u64] at hwrap ⊢
          omega
        rw [hsum]
        rcases h.uvmalloc (ph.vaddr + ph.memsz) with
          ⟨m₁, halloc, h₁, -, -⟩ | ⟨m₁, halloc, h₁, -, -⟩ | ⟨hmany, -, e, halloc⟩
        · rw [halloc]
          simp only [ok_bind]
          split
          · rename_i hzero
            exact h₁.of_pages_eq (by rw [hzero, show sz = 0 by omega])
          · split
            · exact h₁
            · rename_i hva
              rw [pgSize, not_not] at hva
              have hsmall : u32 ph.filesz ≤ ph.filesz := by
                rw [u32]
                omega
              obtain ⟨m₂, hload, h₂, -⟩ := h₁.loadseg ip hva
                (show ph.vaddr + u32 ph.filesz ≤ max sz (ph.vaddr + ph.memsz) by omega)
              rw [hload]
              exact h₂
        · rw [halloc]
          exact h₁
        · rw [halloc]
          exact hmany

/-- The loop over the program headers, whatever they say and in whatever order they
come. -/
theorem Image.execLoad (ip : Inode) (phnum off : ℕ) (h : Image L m₀ m frame root sz ∅) :
    Loads L m₀ frame root (execLoad root ip phnum off sz m) := by
  induction phnum generalizing off sz m with
  | zero => exact h
  | succ phnum ih =>
      rw [Vm.execLoad]
      split
      · exact h
      · have hseg := h.execSegment ip
          (show (proghdr (ip.readi off phSize)).vaddr < 2 ^ 64 from field_lt _ 16 8)
          (field_lt _ 40 8)
        cases hturn : Vm.execSegment m root ip (proghdr (ip.readi off phSize)) sz with
        | error e =>
            rw [hturn] at hseg
            exact hseg
        | ok result =>
            obtain ⟨ok, sz₁, m₁⟩ := result
            rw [hturn] at hseg
            cases ok with
            | true => exact ih _ hseg
            | false => exact hseg

end Loader

section Stack

variable {L : Layout} {m₀ m : Machine} {frame root sz : ℕ} {guard : Set ℕ}

theorem valid_clear {pte : Word} : Valid (pte &&& ~~~pteU) ↔ Valid pte := by
  rw [Valid, Valid, BitVec.and_assoc, show ~~~pteU &&& pteV = pteV by decide]

theorem leaf_clear {pte : Word} : Leaf (pte &&& ~~~pteU) ↔ Leaf pte := by
  rw [Leaf, Leaf, BitVec.and_assoc,
    show ~~~pteU &&& (pteR ||| pteW ||| pteX) = pteR ||| pteW ||| pteX by decide]

theorem pte2pa_clear (pte : Word) : pte2pa (pte &&& ~~~pteU) = pte2pa pte := by
  have hshift : (pte &&& ~~~pteU) >>> 10 = pte >>> 10 := by
    apply BitVec.eq_of_toNat_eq
    have hlt := (pte >>> 10).isLt
    rw [BitVec.toNat_ushiftRight, BitVec.toNat_and, Nat.shiftRight_and_distrib,
      show (~~~pteU).toNat >>> 10 = 2 ^ 54 - 1 by decide, Nat.and_two_pow_sub_one_eq_mod,
      ← BitVec.toNat_ushiftRight, Nat.mod_eq_of_lt]
    rw [BitVec.toNat_ushiftRight, Nat.shiftRight_eq_div_pow]
    omega
  rw [pte2pa, hshift, pte2pa]

theorem flags_clear (pte : Word) : pteFlags (pte &&& ~~~pteU) ||| pteU = pteFlags pte ||| pteU := by
  ext i hi
  simp only [pteFlags, BitVec.getElem_or, BitVec.getElem_and, BitVec.getElem_not]
  cases pte[i] <;> cases pteU[i] <;> simp

/-- `uvmclear` takes a page of the image away from the user. -/
theorem Image.uvmclear (h : Image L m₀ m frame root sz guard) {vpn : ℕ} (hvpn : vpn < pages sz) :
    ∃ m', uvmclear m root (4096 * vpn) = .ok m' ∧
      Image L m₀ m' frame root sz (insert vpn guard) ∧ m'.free = m.free := by
  have htop := h.top
  have hlast : trapframe < 2 ^ 26 := by decide
  obtain ⟨table, hnode⟩ := node_of_valid (h.space.mapped vpn hvpn)
  have hword := entry_of_node hnode
  have hready := h.space.ready h.apart
  have hvalid := h.space.mapped vpn hvpn
  have hedit := Edit.store hready (show vpn < 2 ^ 26 by omega) hnode
    (entry m.mem root vpn &&& ~~~pteU) fun _ => leaf_clear.mpr (h.space.table.leaf_entry hvalid)
  have hchange := hedit.retarget h.space h.apart (by
    intro v hv
    rw [Function.update_apply]
    split
    · rename_i heq
      subst heq
      exact ⟨valid_clear.mpr hvalid, pte2pa_clear _⟩
    · exact ⟨h.space.mapped v hv, rfl⟩)
  have hfree := hedit.count
  rw [Finset.card_empty] at hfree
  have hcount := h.count
  refine ⟨_, ?_, h.change hchange htop (by omega) ?_ ?_ ?_, rfl⟩
  · have hfind := find_eq m root (show vpn < 2 ^ 26 by omega) (show 0 < 4096 by decide)
    rw [Nat.add_zero, hnode] at hfind
    rw [Vm.uvmclear, hfind, hword]
    rfl
  · intro v hlo hhi
    rw [Function.update_of_ne (by omega)]
    exact h.rest v hlo hhi
  · intro v hv
    rw [Function.update_apply]
    split
    · rename_i heq
      subst heq
      rw [flags_clear]
      exact h.flags v hv
    · exact h.flags v hv
  · intro v hv
    rw [Set.mem_insert_iff, Function.update_apply]
    split
    · rename_i heq
      rw [BitVec.and_assoc, show ~~~pteU &&& pteU = 0#64 by decide, BitVec.and_zero]
      exact iff_of_true rfl (Or.inl heq)
    · rename_i hne
      rw [h.guarded v hv]
      exact (or_iff_right hne).symm

/-- The guard page and the stack page. -/
theorem Image.execStack (h : Image L m₀ m frame root sz ∅) :
    (∃ m', execStack m root sz = .ok (true, 4096 * (pages sz + 2), m') ∧
      Image L m₀ m' frame root (4096 * (pages sz + 2)) {pages sz} ∧
      m.free.length = m'.free.length + userNeed m root sz (4096 * (pages sz + 2))) ∨
    (∃ m', execStack m root sz = .ok (false, 4096 * pages sz, m') ∧
      Image L m₀ m' frame root (4096 * pages sz) ∅ ∧
      (pages sz + 2 ≤ trapframe → m.free.length < userNeed m root sz (4096 * (pages sz + 2)))) ∨
    (trapframe < m₀.free.length ∧ trapframe < pages sz + 2 ∧
      ∃ e, execStack m root sz = .error e) := by
  have htop := h.top
  have hlast : trapframe < 2 ^ 26 := by decide
  have hround : pgRoundUp sz = 4096 * pages sz := by
    rw [pgRoundUp_pages (by rw [pages] at htop; omega), Nat.mul_comm]
  have hsum : u64 (((4096 * pages sz : ℕ) : Int) + 2 * pgSize) = 4096 * (pages sz + 2) := by
    rw [u64, pgSize]
    omega
  have haddr : u64 (((4096 * (pages sz + 2) : ℕ) : Int) - 2 * pgSize) = 4096 * pages sz := by
    rw [u64, pgSize]
    omega
  have hpages : pages (4096 * (pages sz + 2)) = pages sz + 2 := by rw [Nat.mul_comm, pages_mul]
  have hsame : pages (4096 * pages sz) = pages sz := by rw [Nat.mul_comm, pages_mul]
  have himage := h.of_pages_eq hsame
  have hneed : userNeed m root (4096 * pages sz) (4096 * (pages sz + 2))
      = userNeed m root sz (4096 * (pages sz + 2)) := by
    rw [userNeed, userNeed, newVpns, newVpns, hsame]
  rw [Vm.execStack, hround]
  simp only [hsum]
  rcases himage.uvmalloc (4096 * (pages sz + 2)) with
    ⟨m₁, halloc, h₁, hlength, -⟩ | ⟨m₁, halloc, h₁, -, hshort⟩ |
    ⟨hmany, hlarge, e, halloc⟩
  · rw [Nat.max_eq_right (by omega)] at halloc h₁ hlength
    obtain ⟨m₂, hclear, h₂, hfree⟩ := h₁.uvmclear
      (show pages sz < pages (4096 * (pages sz + 2)) by omega)
    rw [insert_empty_eq] at h₂
    rw [hneed, ← hfree] at hlength
    refine Or.inl ⟨m₂, ?_, h₂, hlength⟩
    have hne : ¬ 4096 * (pages sz + 2) = 0 := by omega
    rw [halloc, ok_bind]
    dsimp only
    rw [if_neg hne, haddr, hclear, ok_bind]
    rfl
  · rw [hpages, hneed] at hshort
    refine Or.inr (Or.inl ⟨m₁, ?_, h₁, hshort⟩)
    simp only [halloc, ok_bind, if_true]
    rfl
  · rw [hpages] at hlarge
    refine Or.inr (Or.inr ⟨hmany, hlarge, e, ?_⟩)
    rw [halloc, error_bind]

/-- `copyout` to an image. -/
theorem Image.copyout (h : Image L m₀ m frame root sz guard) (dstva : ℕ) (src : List (BitVec 8)) :
    ∃ ok m', copyout m root dstva src = .ok (ok, m') ∧ Image L m₀ m' frame root sz guard ∧
      m'.free = m.free ∧ (ok = true → src = [] ∨ dstva + src.length ≤ 4096 * pages sz) := by
  obtain ⟨ok, m', hloop, hfree, hframe, hwithin⟩ :=
    h.space.copyoutLoop h.frame_lt h.rest dstva (le_refl src.length)
  exact ⟨ok, m', hloop, h.writes hfree hframe, hfree, hwithin⟩

theorem Image.pushArgs (h : Image L m₀ m frame root sz guard) (stackbase sp : ℕ) (ustack : List ℕ)
    (argv : List (List (BitVec 8))) :
    ∃ pushed m', pushArgs L root stackbase argv sp ustack m = .ok (pushed, m') ∧
      Image L m₀ m' frame root sz guard ∧ m'.free = m.free := by
  induction argv generalizing sp ustack m with
  | nil => exact ⟨_, m, rfl, h, rfl⟩
  | cons arg argv ih =>
      rw [Vm.pushArgs]
      split
      · exact ⟨_, m, rfl, h, rfl⟩
      · simp only
        split
        · exact ⟨_, m, rfl, h, rfl⟩
        · obtain ⟨ok, m₁, hcopy, h₁, hfree₁, -⟩ := h.copyout
            (u64 (sp - (arg.length + 1)) - u64 (sp - (arg.length + 1)) % 16) (arg ++ [0])
          rw [hcopy]
          cases ok with
          | true =>
              obtain ⟨pushed, m', hpush, h', hfree'⟩ := ih h₁ _ _
              exact ⟨pushed, m', hpush, h', hfree'.trans hfree₁⟩
          | false => exact ⟨_, m₁, rfl, h₁, hfree₁⟩

theorem Image.execArgs (h : Image L m₀ m frame root sz guard) (argv : List (List (BitVec 8))) :
    ∃ pushed m', execArgs L m root sz argv = .ok (pushed, m') ∧
      Image L m₀ m' frame root sz guard ∧ m'.free = m.free := by
  rw [Vm.execArgs]
  obtain ⟨pushed, m₁, hpush, h₁, hfree₁⟩ := h.pushArgs (u64 (sz - pgSize)) sz [] argv
  simp only [hpush, ok_bind]
  cases pushed with
  | none => exact ⟨_, m₁, rfl, h₁, hfree₁⟩
  | some result =>
      obtain ⟨sp, ustack⟩ := result
      simp only
      split
      · exact ⟨_, m₁, rfl, h₁, hfree₁⟩
      · obtain ⟨ok, m₂, hcopy, h₂, hfree₂, -⟩ := h₁.copyout
          (u64 (sp - (ustack.length + 1) * 8) - u64 (sp - (ustack.length + 1) * 8) % 16)
          ((ustack ++ [0]).flatMap fun pointer => wordBytes (BitVec.ofNat 64 pointer))
        rw [hcopy]
        cases ok with
        | true => exact ⟨_, m₂, rfl, h₂, hfree₂.trans hfree₁⟩
        | false => exact ⟨_, m₂, rfl, h₂, hfree₂.trans hfree₁⟩

/-- `bad` gives the new page table and its pages back. -/
theorem Image.execBad (h : Image L m₀ m frame root sz guard) (p : Proc) :
    ∃ m', execBad m p root sz = .ok (none, p, m') ∧ Moves ∅ ∅ m₀ m' := by
  have hsize := h.size_lt
  have htop : 4096 * trapframe < 2 ^ 63 := by decide
  obtain ⟨m', hfree, hmoves⟩ := procFreeuserpagetable_spec h.top (show sz < 2 ^ 63 by omega)
    h.space h.apart h.rest
  refine ⟨m', ?_, h.moves.trans hmoves⟩
  rw [Vm.execBad, hfree]
  rfl

end Stack

end OperateSystem.Vm

import OperateSystem.Vm.Arguments
import OperateSystem.Vm.Contents

/-!
# The program that `exec` loads

After a successful `exec` the memory of the process is the one that the program headers
describe: a byte comes from the last loadable segment that covers its address, and is zero
where no segment does.  Above it there is the guard page, and then the page of the stack.
-/

namespace OperateSystem.Vm

open OperateSystem.PointerTree OperateSystem.Translation

/-- The byte that a segment has for an address: `loadseg` reads the file page by page. -/
def segmentByte (ip : Inode) (ph : ProgHdr) (va : ℕ) : BitVec 8 :=
  let i := (va - ph.vaddr) / pgSize * pgSize
  (ip.readi (u32 (u32 ph.off + i)) (min (u32 ph.filesz - i) pgSize)).getD
    ((va - ph.vaddr) % pgSize) 0

/-- Whether the file has a byte for an address in this segment. -/
def Covers (ph : ProgHdr) (va : ℕ) : Prop :=
  ph.type = elfProgLoad ∧ ph.vaddr ≤ va ∧ va < ph.vaddr + u32 ph.filesz

instance (ph : ProgHdr) (va : ℕ) : Decidable (Covers ph va) :=
  inferInstanceAs (Decidable (_ ∧ _ ∧ _))

/-- The memory that the program headers describe, on top of `bytes`: the last segment that
covers an address decides. -/
def imageByte (ip : Inode) (bytes : ℕ → BitVec 8) (phs : List ProgHdr) (va : ℕ) : BitVec 8 :=
  phs.foldl (fun byte ph => if Covers ph va then segmentByte ip ph va else byte) (bytes va)

/-- The program headers from offset `off` of the file on. -/
def progHdrs (ip : Inode) : (phnum off : ℕ) → List ProgHdr
  | 0, _ => []
  | phnum + 1, off => proghdr (ip.readi off phSize) :: progHdrs ip phnum (u32 (off + phSize))

section Pages

variable {L : Layout} {m₀ m m' : Machine} {frame root sz : ℕ} {guard : Set ℕ}

/-- A page of the image gets new bytes at its start. -/
theorem Image.mappedByte_write (h : Image L m₀ m frame root sz guard) {vpn va : ℕ}
    (hvpn : vpn < pages sz) (hva : va / 4096 < pages sz) {bytes : List (BitVec 8)}
    (hlength : bytes.length ≤ 4096) :
    mappedByte (m.write (pte2pa (entry m.mem root vpn)) 0 bytes) root va
      = if va / 4096 = vpn ∧ va % 4096 < bytes.length then bytes.getD (va % 4096) 0
        else mappedByte m root va := by
  have hframe : ∀ table ∈ tables m.mem root,
      (m.write (pte2pa (entry m.mem root vpn)) 0 bytes).mem table = m.mem table := by
    intro table htable
    apply write_of_ne
    rintro rfl
    exact h.space.apart vpn hvpn htable
  rw [mappedByte, mappedByte, pgSize, entry_frame hframe]
  by_cases hpage : va / 4096 = vpn
  · rw [hpage, byteAt_write (by omega) (Nat.mod_lt _ (by decide)), ByteStore.overwrite,
      if_pos (Nat.zero_le _), Nat.sub_zero]
    by_cases hin : va % 4096 < bytes.length
    · rw [if_pos ⟨rfl, hin⟩, List.getElem?_eq_getElem hin, Option.getD_some,
        List.getD_eq_getElem _ _ hin]
    · rw [if_neg (fun hboth => hin hboth.2), List.getElem?_eq_none (by omega), Option.getD_none]
  · rw [if_neg (fun hboth => hpage hboth.1), write_of_ne]
    exact fun heq => hpage (h.space.inj _ hva vpn hvpn heq)

/-- What `loadseg` has read from page `i` of the segment on. -/
theorem Image.loadsegLoop_bytes (ip : Inode) {offset filesz vaddr npages i : ℕ}
    (h : Image L m₀ m frame root sz ∅) (hva : vaddr % 4096 = 0) (hi : i % 4096 = 0)
    (hend : (vaddr + i) / 4096 + npages ≤ pages sz) (hcount : filesz ≤ i + npages * 4096)
    (hload : Vm.loadsegLoop ip root vaddr offset filesz npages i m = .ok (true, m')) (va : ℕ)
    (hin : va / 4096 < pages sz) :
    mappedByte m' root va
      = if vaddr + i ≤ va ∧ va < vaddr + filesz then
          (ip.readi (u32 (offset + ((va - vaddr) / 4096 * 4096 : ℕ)))
            (min (filesz - (va - vaddr) / 4096 * 4096) 4096)).getD ((va - vaddr) % 4096) 0
        else mappedByte m root va := by
  have htop := h.top
  have hlast : trapframe < 2 ^ 26 := by decide
  induction npages generalizing i m with
  | zero =>
      cases hload
      rw [if_neg (by omega)]
  | succ npages ih =>
      have hvpn : (vaddr + i) / 4096 < pages sz := by omega
      have haddr : u64 ((vaddr : Int) + i) = 4096 * ((vaddr + i) / 4096) + 0 := by
        rw [u64]
        omega
      have hmin : (if filesz - i < pgSize then filesz - i else pgSize) = min (filesz - i) 4096 := by
        rw [pgSize]
        split <;> omega
      have hwalk := h.walkaddr_open hvpn (show 0 < 4096 by decide) (Set.notMem_empty _)
      rw [Vm.loadsegLoop, haddr, hwalk] at hload
      simp only [ok_bind, hmin] at hload
      have hle := ip.readi_le (u32 (offset + i)) (min (filesz - i) 4096)
      split at hload
      · rename_i hlength
        have hwrite := h.write ⟨_, hvpn, rfl⟩ 0
          (ip.readi (u32 (offset + i)) (min (filesz - i) 4096))
        rw [ih hwrite (i := i + pgSize) (by rw [pgSize]; omega) (by rw [pgSize]; omega)
          (by rw [pgSize]; omega) hload, h.mappedByte_write hvpn hin (by omega), hlength, pgSize]
        by_cases hrest : vaddr + (i + 4096) ≤ va ∧ va < vaddr + filesz
        · rw [if_pos hrest, if_pos (by omega)]
        · rw [if_neg hrest]
          by_cases hpage : va / 4096 = (vaddr + i) / 4096 ∧ va % 4096 < min (filesz - i) 4096
          · have hoffset : (va - vaddr) / 4096 * 4096 = i := by omega
            rw [if_pos hpage, if_pos (by omega), hoffset,
              show (va - vaddr) % 4096 = va % 4096 by omega]
          · rw [if_neg hpage, if_neg (by omega)]
      · cases hload

/-- `uvmalloc` adds pages of zeros to the image. -/
theorem Image.uvmalloc_bytes {newsz : ℕ} (h : Image L m₀ m frame root sz ∅) (hle : sz ≤ newsz)
    (hpos : 0 < newsz) (htop : pages newsz ≤ trapframe)
    (halloc : Vm.uvmalloc m root sz newsz = .ok (newsz, m')) {va : ℕ}
    (hva : va / 4096 < pages newsz) :
    mappedByte m' root va = if va / 4096 < pages sz then mappedByte m root va else 0 := by
  have hlast : trapframe < 2 ^ 26 := by decide
  have hsmall : newsz ≤ 2 ^ 38 := by
    rw [pages] at htop
    omega
  have hvacant : ∀ vpn, pages sz ≤ vpn → vpn < pages newsz → entry m.mem root vpn = 0 := by
    intro vpn hlo hhi
    rw [h.rest vpn hlo (by omega), userMap_low L (by omega)]
  rw [mappedByte, mappedByte, pgSize]
  by_cases hold : va / 4096 < pages sz
  · rw [if_pos hold]
    rcases uvmalloc_spec h.space h.apart hle hsmall hvacant with
      ⟨m₁, map, hok, hgrow, -⟩ | ⟨m₁, added, hfail, -⟩
    · rw [halloc] at hok
      cases hok
      rw [hgrow.entry_eq _ (by omega), hgrow.same _ hold, hgrow.keep _ hold]
    · rw [halloc] at hfail
      simp only [Except.ok.injEq, Prod.mk.injEq] at hfail
      omega
  · rw [if_neg hold, uvmalloc_zeroed h.space h.apart hle hsmall hvacant hpos halloc
      (by omega) hva]
    exact byteAt_zero _

end Pages

/-- The image holds these bytes, which are zero above it. -/
structure Bears (m : Machine) (root sz : ℕ) (bytes : ℕ → BitVec 8) : Prop where
  mapped : ∀ va, va / 4096 < pages sz → mappedByte m root va = bytes va
  above : ∀ va, pages sz ≤ va / 4096 → bytes va = 0

section Segments

variable {L : Layout} {m₀ m m' : Machine} {frame root sz sz' : ℕ} {bytes : ℕ → BitVec 8}

theorem Bears.of_pages_eq (h : Bears m root sz bytes) (heq : pages sz' = pages sz) :
    Bears m root sz' bytes := by
  constructor
  · intro va hva
    exact h.mapped va (heq ▸ hva)
  · intro va hva
    exact h.above va (heq ▸ hva)

/-- Growing the image leaves the bytes that it is described by. -/
theorem Bears.uvmalloc (h : Bears m root sz bytes) (himage : Image L m₀ m frame root sz ∅)
    {newsz : ℕ} (himage' : Image L m₀ m' frame root (max sz newsz) ∅)
    (halloc : Vm.uvmalloc m root sz newsz = .ok (max sz newsz, m')) :
    Bears m' root (max sz newsz) bytes := by
  by_cases hlt : newsz < sz
  · rw [Vm.uvmalloc, if_pos hlt, Nat.max_eq_left hlt.le] at halloc
    cases halloc
    rw [Nat.max_eq_left hlt.le]
    exact h
  · have hle : sz ≤ newsz := by omega
    rw [Nat.max_eq_right hle] at halloc himage' ⊢
    have hpages := pages_mono hle
    refine ⟨?_, fun va hva => h.above va (by omega)⟩
    intro va hva
    have hpos : 0 < newsz := by
      rw [pages] at hva
      omega
    rw [himage.uvmalloc_bytes hle hpos himage'.top halloc hva]
    by_cases hold : va / 4096 < pages sz
    · rw [if_pos hold]
      exact h.mapped va hold
    · rw [if_neg hold, h.above va (by omega)]

/-- A turn of the loop over the program headers puts the segment on top of the image. -/
theorem Image.execSegment_bytes (ip : Inode) {ph : ProgHdr} (hvaddr : ph.vaddr < 2 ^ 64)
    (hmemsz : ph.memsz < 2 ^ 64) (h : Image L m₀ m frame root sz ∅) (hbytes : Bears m root sz bytes)
    (hload : Vm.execSegment m root ip ph sz = .ok (true, sz', m')) :
    Bears m' root sz' fun va => if Covers ph va then segmentByte ip ph va else bytes va := by
  rw [Vm.execSegment] at hload
  split at hload
  · rename_i htype
    cases hload
    simp only [Covers, htype, false_and, if_false]
    exact hbytes
  · rename_i htype
    rw [not_not] at htype
    split at hload
    · cases hload
    · split at hload
      · cases hload
      · rename_i hfilesz hwrap
        have hsum : u64 ((ph.vaddr : Int) + ph.memsz) = ph.vaddr + ph.memsz := by
          rw [u64] at hwrap ⊢
          omega
        have hsmall : u32 ph.filesz ≤ ph.filesz := by
          rw [u32]
          omega
        rw [hsum] at hload
        rcases h.uvmalloc (ph.vaddr + ph.memsz) with
          ⟨m₁, halloc, h₁, -⟩ | ⟨m₁, halloc, -⟩ | ⟨-, -, e, halloc⟩
        · have hgrown := hbytes.uvmalloc h h₁ halloc
          rw [halloc] at hload
          simp only [ok_bind] at hload
          split at hload
          · cases hload
          · split at hload
            · cases hload
            · rename_i hva
              rw [pgSize, not_not] at hva
              rw [Vm.loadseg, if_neg (by rw [pgSize]; omega), pgSize] at hload
              obtain ⟨⟨ok, m₂⟩, hloop, hload⟩ := bind_eq_ok hload
              cases hload
              have hread := h₁.loadsegLoop_bytes ip hva (Nat.zero_mod _)
                (show (ph.vaddr + 0) / 4096 + (u32 ph.filesz + (4096 - 1)) / 4096 ≤ _ by
                  rw [pages]
                  omega)
                (show u32 ph.filesz ≤ 0 + (u32 ph.filesz + (4096 - 1)) / 4096 * 4096 by omega) hloop
              constructor
              · intro va hin
                rw [hread va hin, Nat.add_zero, hgrown.mapped va hin]
                simp only [Covers, htype, true_and]
                rfl
              · intro va hout
                have hcover : ¬ Covers ph va := by
                  rintro ⟨-, -, hlt⟩
                  rw [pages] at hout
                  omega
                rw [if_neg hcover]
                exact hgrown.above va hout
        · rw [halloc] at hload
          cases hload
        · rw [halloc] at hload
          cases hload

/-- The loop over the program headers. -/
theorem Image.execLoad_bytes (ip : Inode) {phnum off : ℕ} (h : Image L m₀ m frame root sz ∅)
    (hbytes : Bears m root sz bytes)
    (hload : Vm.execLoad root ip phnum off sz m = .ok (true, sz', m')) :
    Bears m' root sz' (imageByte ip bytes (progHdrs ip phnum off)) := by
  induction phnum generalizing off sz m bytes with
  | zero =>
      cases hload
      exact hbytes
  | succ phnum ih =>
      rw [Vm.execLoad] at hload
      dsimp only at hload
      split at hload
      · cases hload
      · obtain ⟨⟨ok, sz₁, m₁⟩, hsegment, hload⟩ := bind_eq_ok hload
        cases ok with
        | false => cases hload
        | true =>
            have hvaddr : (proghdr (ip.readi off phSize)).vaddr < 2 ^ 64 := field_lt _ 16 8
            have hmemsz : (proghdr (ip.readi off phSize)).memsz < 2 ^ 64 := field_lt _ 40 8
            have himage := h.execSegment ip hvaddr hmemsz
            rw [hsegment] at himage
            exact ih himage (h.execSegment_bytes ip hvaddr hmemsz hbytes hsegment) hload

end Segments

section Stack

variable {L : Layout} {m₀ m m' : Machine} {frame root sz : ℕ} {guard : Set ℕ}
  {bytes : ℕ → BitVec 8}

/-- `uvmclear` leaves the bytes of the image alone. -/
theorem Image.uvmclear_bytes (h : Image L m₀ m frame root sz guard) {vpn : ℕ}
    (hvpn : vpn < pages sz) (hclear : Vm.uvmclear m root (4096 * vpn) = .ok m') {va : ℕ}
    (hva : va / 4096 < pages sz) : mappedByte m' root va = mappedByte m root va := by
  have htop := h.top
  have hlast : trapframe < 2 ^ 26 := by decide
  have hvalid := h.space.mapped vpn hvpn
  obtain ⟨table, hnode⟩ := node_of_valid hvalid
  have hedit := Edit.store (h.space.ready h.apart) (show vpn < 2 ^ 26 by omega) hnode
    (entry m.mem root vpn &&& ~~~pteU) fun _ => leaf_clear.mpr (h.space.table.leaf_entry hvalid)
  have hfind := find_eq m root (show vpn < 2 ^ 26 by omega) (show 0 < 4096 by decide)
  rw [Nat.add_zero, hnode] at hfind
  rw [Vm.uvmclear, hfind] at hclear
  change Except.ok (m.store table (idx 0 vpn) (m.mem table (idx 0 vpn) &&& ~~~pteU)) = _ at hclear
  rw [← entry_of_node hnode] at hclear
  cases hclear
  have htarget : pte2pa (entry (m.store table (idx 0 vpn)
      (entry m.mem root vpn &&& ~~~pteU)).mem root (va / 4096))
        = pte2pa (entry m.mem root (va / 4096)) := by
    rw [hedit.entry_eq _ (by omega), Function.update_apply]
    split
    · rename_i heq
      rw [pte2pa_clear, heq]
    · rfl
  rw [mappedByte, mappedByte, pgSize, htarget, store_of_ne]
  rintro rfl
  exact h.space.apart _ hva ⟨pathOf vpn, by simp [pathOf], hnode⟩

/-- The guard page and the stack page are pages of zeros above the image. -/
theorem Image.execStack_bytes (h : Image L m₀ m frame root sz ∅) (hbytes : Bears m root sz bytes)
    (hstack : Vm.execStack m root sz = .ok (true, 4096 * (pages sz + 2), m')) :
    Bears m' root (4096 * (pages sz + 2)) bytes := by
  have htop := h.top
  have hlast : trapframe < 2 ^ 26 := by decide
  have hround : pgRoundUp sz = 4096 * pages sz := by
    rw [pgRoundUp_pages (by rw [pages] at htop; omega), Nat.mul_comm]
  have hsum : u64 (((4096 * pages sz : ℕ) : Int) + 2 * pgSize) = 4096 * (pages sz + 2) := by
    rw [u64, pgSize]
    omega
  have haddr : u64 (((4096 * (pages sz + 2) : ℕ) : Int) - 2 * pgSize) = 4096 * pages sz := by
    rw [u64, pgSize]
    omega
  have hpages : pages (4096 * (pages sz + 2)) = pages sz + 2 := by rw [Nat.mul_comm, pages_mul]
  have hsame : pages (4096 * pages sz) = pages sz := by rw [Nat.mul_comm, pages_mul]
  have himage := h.of_pages_eq hsame
  rw [Vm.execStack, hround] at hstack
  simp only [hsum] at hstack
  rcases himage.uvmalloc (4096 * (pages sz + 2)) with
    ⟨m₁, halloc, h₁, -⟩ | ⟨m₁, halloc, -⟩ | ⟨-, -, e, halloc⟩
  · have hgrown := (hbytes.of_pages_eq hsame).uvmalloc himage h₁ halloc
    rw [Nat.max_eq_right (by omega)] at halloc h₁ hgrown
    rw [halloc, ok_bind] at hstack
    dsimp only at hstack
    rw [if_neg (by omega), haddr] at hstack
    obtain ⟨m₂, hclear, hstack⟩ := bind_eq_ok hstack
    cases hstack
    refine ⟨?_, hgrown.above⟩
    intro va hva
    rw [h₁.uvmclear_bytes (by omega) hclear hva]
    exact hgrown.mapped va hva
  · rw [halloc] at hstack
    cases hstack
  · rw [halloc] at hstack
    cases hstack

/-- The user may use no page above the image. -/
theorem Image.open_below (h : Image L m₀ m frame root sz guard) {vpn : ℕ} (hvpn : vpn < 2 ^ 26)
    (hopen : Open m root vpn) : vpn < pages sz := by
  by_contra hout
  apply hopen.2
  rw [h.rest vpn (by omega) hvpn]
  exact userMap_not_user h.frame_lt vpn

theorem Image.userPages (h : Image L m₀ m frame root sz guard) : UserPages m root :=
  ⟨fun _ hvpn hopen => h.target_ne_zero (h.open_below hvpn hopen),
    fun vpn hvpn hopen => h.space.apart vpn (h.open_below hvpn hopen)⟩

/-- `copyout` leaves the image below its destination alone. -/
theorem Image.copyout_below (h : Image L m₀ m frame root sz guard) {dst : ℕ}
    {src : List (BitVec 8)} {ok : Bool} (hcopy : Vm.copyout m root dst src = .ok (ok, m')) {va : ℕ}
    (hva : va / 4096 < pages sz) (hlt : va < dst) :
    mappedByte m' root va = mappedByte m root va := by
  have hlast : maxVa = 2 ^ 38 := rfl
  obtain ⟨n, m₁, hloop, hdelivered⟩ := @copyoutLoop_spec m root h.userPages _ dst src (le_refl _)
  rw [Vm.copyout, hloop] at hcopy
  cases hcopy
  rw [mappedByte_eq, mappedByte_eq, cellAt_frame hdelivered.tables, hdelivered.bytes]
  apply writeAt_of_ne
  intro i hi heq
  rw [List.length_take] at hi
  obtain ⟨hsmall, hopen⟩ := hdelivered.range (dst + i) (by omega) (by omega)
  simp only [cellAt, Prod.mk.injEq, Fin.mk.injEq, pgSize] at heq hopen
  have hpage := h.space.inj _ (h.open_below (by omega) hopen) _ hva heq.1
  omega

/-- The arguments are pushed into the page of the stack. -/
theorem Image.pushArgs_below (h : Image L m₀ m frame root sz guard) {stackbase sp : ℕ}
    {ustack : List ℕ} {argv : List (List (BitVec 8))} {pushed : Option (ℕ × List ℕ)}
    (hpush : Vm.pushArgs L root stackbase argv sp ustack m = .ok (pushed, m')) {va : ℕ}
    (hva : va / 4096 < pages sz) (hlt : va < stackbase) :
    mappedByte m' root va = mappedByte m root va := by
  induction argv generalizing sp ustack m with
  | nil =>
      cases hpush
      rfl
  | cons arg argv ih =>
      rw [Vm.pushArgs] at hpush
      split at hpush
      · cases hpush
        rfl
      · simp only at hpush
        split at hpush
        · cases hpush
          rfl
        · rename_i hroom
          obtain ⟨ok, m₁, hcopy, h₁, -⟩ := h.copyout
            (u64 (sp - (arg.length + 1)) - u64 (sp - (arg.length + 1)) % 16) (arg ++ [0])
          have hbelow := h.copyout_below hcopy hva (by omega)
          rw [hcopy] at hpush
          cases ok with
          | true => exact (ih h₁ hpush).trans hbelow
          | false =>
              cases hpush
              exact hbelow

theorem Image.execArgs_below (h : Image L m₀ m frame root sz guard)
    {argv : List (List (BitVec 8))} {pushed : Option ℕ}
    (hargs : Vm.execArgs L m root sz argv = .ok (pushed, m')) {va : ℕ}
    (hva : va / 4096 < pages sz) (hlt : va < u64 (sz - pgSize)) :
    mappedByte m' root va = mappedByte m root va := by
  rw [Vm.execArgs] at hargs
  obtain ⟨made, m₁, hpush, h₁, -⟩ := h.pushArgs (u64 (sz - pgSize)) sz [] argv
  have hbelow := h.pushArgs_below hpush hva hlt
  simp only [hpush, ok_bind] at hargs
  cases made with
  | none =>
      cases hargs
      exact hbelow
  | some result =>
      obtain ⟨sp, ustack⟩ := result
      simp only at hargs
      split at hargs
      · cases hargs
        exact hbelow
      · obtain ⟨ok, m₂, hcopy, -⟩ := h₁.copyout
          (u64 (sp - (ustack.length + 1) * 8) - u64 (sp - (ustack.length + 1) * 8) % 16)
          ((ustack ++ [0]).flatMap fun pointer => wordBytes (BitVec.ofNat 64 pointer))
        have hbelow₂ := h₁.copyout_below hcopy hva (by omega)
        rw [hcopy] at hargs
        cases ok with
        | true =>
            cases hargs
            exact hbelow₂.trans hbelow
        | false =>
            cases hargs
            exact hbelow₂.trans hbelow

end Stack

section Program

variable {L : Layout} {m m' : Machine} {p p' : Proc} {frame user kern : ℕ}

/-- The program headers of a file. -/
def headersOf (ip : Inode) : List ProgHdr :=
  progHdrs ip (elfhdr (ip.readi 0 elfSize)).phnum (u32 (elfhdr (ip.readi 0 elfSize)).phoff)

/-- The memory of a process that runs a file: the segments of the file, with zeros between
them, a guard page and the page of the stack. -/
structure Runs (m : Machine) (p : Proc) (ip : Inode) (root n : ℕ) : Prop where
  pagetable : p.pagetable = some root
  size : p.sz = (n + 2) * pgSize
  image : ∀ va, va < n * pgSize →
    userMemory m root va = some (imageByte ip (fun _ => 0) (headersOf ip) va)
  fits : ∀ va, n * pgSize ≤ va → imageByte ip (fun _ => 0) (headersOf ip) va = 0
  guard : ∀ va, n * pgSize ≤ va → va < (n + 1) * pgSize → userMemory m root va = none
  stack : ∀ va, (n + 1) * pgSize ≤ va → va < (n + 2) * pgSize → userMemory m root va ≠ none
  above : ∀ va, (n + 2) * pgSize ≤ va → userMemory m root va = none

/-- What the stages of `exec` have put below the stack. -/
theorem Staged.bytes {ip : Inode} {argv : List (List (BitVec 8))} {root sz sp : ℕ}
    {m₁ m₂ m₃ m₄ : Machine} (h : Staged L m frame ip argv root sz sp m₁ m₂ m₃ m₄)
    (hlive : Live L m p frame user kern) (hapart : Apart m (owned m p)) (hnull : 0 ∉ m.free) :
    (∀ va, va < 4096 * (pages sz + 1) →
      mappedByte m₄ root va = imageByte ip (fun _ => 0) (headersOf ip) va) ∧
    ∀ va, 4096 * pages sz ≤ va → imageByte ip (fun _ => 0) (headersOf ip) va = 0 := by
  have hbase := hapart.mono (Set.empty_subset _)
  have hpages : pages (4096 * (pages sz + 2)) = pages sz + 2 := by rw [Nat.mul_comm, pages_mul]
  have htop := h.ready.size_lt
  have hlast : 4096 * trapframe < 2 ^ 38 := by decide
  rcases procPagetable_spec L hbase hlive.frame_lt with
    ⟨root', m₁', htable, hbuilt⟩ | ⟨m₁', htable, -, -⟩
  · rw [h.table] at htable
    cases htable
    have hempty : Bears m₁ root 0 fun _ => 0 :=
      ⟨fun va hva => absurd hva (Nat.not_lt_zero _), fun _ _ => rfl⟩
    have himage := hbuilt.image hbase hnull hlive.frame_lt
    have hloaded := himage.execLoad_bytes ip hempty h.load
    have hready := load_ready hlive hapart hnull h.table h.load
    have hstack := hready.execStack_bytes hloaded h.stack
    constructor
    · intro va hva
      have hbase : u64 (((4096 * (pages sz + 2) : ℕ) : Int) - pgSize) = 4096 * (pages sz + 1) := by
        rw [u64, pgSize]
        omega
      rw [h.ready.execArgs_below h.args (by omega) (by rw [hbase]; exact hva)]
      exact hstack.mapped va (by omega)
    · intro va hva
      exact hloaded.above va (by omega)
  · rw [h.table] at htable
    cases htable

/-- The process that the last stage of `exec` leaves runs the program: the user sees the
segments of the file at their addresses, zeros where there is none, no guard page, and a
stack. -/
theorem Staged.runs {ip : Inode} {argv : List (List (BitVec 8))} {root sz sp e : ℕ}
    {m₁ m₂ m₃ m₄ : Machine} {path : List Char}
    (hstaged : Staged L m frame ip argv root sz sp m₁ m₂ m₃ m₄)
    (hdone : Committed L m m₄ m' p (replaced p path root (4096 * (pages sz + 2))) frame root kern sp
      e)
    (hlive : Live L m p frame user kern) (hapart : Apart m (owned m p)) (hnull : 0 ∉ m.free) :
    Runs m' (replaced p path root (4096 * (pages sz + 2))) ip root (pages sz) := by
  obtain ⟨hbytes, habove⟩ := hstaged.bytes hlive hapart hnull
  have hpages : pages (4096 * (pages sz + 2)) = pages sz + 2 := by rw [Nat.mul_comm, pages_mul]
  have htop := hstaged.ready.size_lt
  have hlast : 4096 * trapframe < 2 ^ 38 := by decide
  have hkeep := hdone.keep
  change ∀ page ∈ held m₄.mem root (Set.Iio (pages (4096 * (pages sz + 2)))), _ at hkeep
  have htables : ∀ page ∈ tables m₄.mem root, m'.mem page = m₄.mem page :=
    fun page hpage => hkeep page (Or.inl hpage)
  have hopen : ∀ vpn, vpn < pages sz + 2 → (Open m' root vpn ↔ vpn ≠ pages sz) := by
    intro vpn hvpn
    rw [open_frame htables]
    constructor
    · rintro hopen rfl
      exact hopen.2 ((hstaged.image.guarded _ (by omega)).mpr rfl)
    · intro hne
      exact ⟨hstaged.image.space.mapped vpn (show vpn < _ by omega),
        fun hclear => hne ((hstaged.image.guarded vpn (by omega)).mp hclear)⟩
  have hmemory : ∀ va, va / 4096 < pages sz + 2 → userMemory m' root va
      = if va / 4096 ≠ pages sz then some (mappedByte m₄ root va) else none := by
    intro va hva
    have hmapped : mappedByte m' root va = mappedByte m₄ root va := by
      rw [mappedByte, mappedByte, pgSize, entry_frame htables, hkeep]
      exact Or.inr ⟨va / 4096, by rw [hpages]; exact hva, rfl⟩
    rw [userMemory, hmapped]
    have hsmall : va < maxVa := by
      rw [maxVa]
      omega
    simp only [hsmall, true_and, pgSize, hopen _ hva]
  refine ⟨rfl, ?_, ?_, ?_, ?_, ?_, ?_⟩
  · exact Nat.mul_comm _ _
  · intro va hva
    rw [pgSize] at hva
    rw [hmemory va (by omega), if_pos (by omega), hbytes va (by omega)]
  · intro va hva
    rw [pgSize] at hva
    exact habove va (by omega)
  · intro va hlo hhi
    rw [pgSize] at hlo hhi
    rw [hmemory va (by omega), if_neg (by omega)]
  · intro va hlo hhi
    rw [pgSize] at hlo hhi
    rw [hmemory va (by omega), if_pos (by omega)]
    exact Option.some_ne_none _
  · intro va hva
    rw [pgSize] at hva
    rw [userMemory, if_neg]
    rintro ⟨hsmall, hopen⟩
    rw [pgSize, open_frame htables] at hopen
    rw [maxVa] at hsmall
    have := hstaged.image.open_below (by omega) hopen
    omega

end Program

end OperateSystem.Vm

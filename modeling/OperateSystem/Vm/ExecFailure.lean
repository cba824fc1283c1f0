import OperateSystem.Vm.Arguments

/-!
# `exec` that fails

A failed `exec` is expected to leave the process as it was.  Up to the commit it does.
There the old mirror is unmapped and the new page table installed before `kvmcopy` may
fail, and the new page table is then freed while the process points to it.  How far a
call gets is decided by the file, the arguments and the number of free pages.
-/

namespace OperateSystem.Vm

open OperateSystem.PointerTree OperateSystem.DownStack

section Arguments

variable {L : Layout} {m₀ m : Machine} {frame root n : ℕ}

/-- An argument that is longer than the stack page is not pushed. -/
theorem Image.pushArgs_long {stackbase sz : ℕ} {guard : Set ℕ}
    (h : Image L m₀ m frame root sz guard) (hbase : stackbase + 4096 = 4096 * pages sz)
    {argv : List (List (BitVec 8))} (hlong : ∃ arg ∈ argv, 4096 ≤ arg.length) (sp : ℕ)
    (ustack : List ℕ) :
    ∃ m', Vm.pushArgs L root stackbase argv sp ustack m = .ok (none, m') := by
  induction argv generalizing sp ustack m with
  | nil =>
      obtain ⟨arg, harg, -⟩ := hlong
      cases harg
  | cons arg argv ih =>
      rw [Vm.pushArgs]
      split
      · exact ⟨m, rfl⟩
      · simp only
        split
        · exact ⟨m, rfl⟩
        · rename_i hge
          obtain ⟨ok, m₁, hcopy, h₁, -, hwithin⟩ := h.copyout
            (u64 (sp - (arg.length + 1)) - u64 (sp - (arg.length + 1)) % 16) (arg ++ [0])
          rw [hcopy]
          cases ok with
          | false => exact ⟨m₁, rfl⟩
          | true =>
              -- The string has found room above `stackbase`, so it is another one that is long.
              have hroom := (hwithin rfl).resolve_left (by simp)
              rw [List.length_append, List.length_singleton] at hroom
              refine ih h₁ ?_ _ _
              obtain ⟨long, hmem, hlength⟩ := hlong
              rcases List.mem_cons.mp hmem with rfl | hmem
              · omega
              · exact ⟨long, hmem, hlength⟩

/-- Whether the arguments fit on the stack is decided by their number and their lengths. -/
theorem execArgs_fits {argv : List (List (BitVec 8))}
    (h : Image L m₀ m frame root (4096 * (n + 2)) {n}) :
    (∃ sp m', execArgs L m root (4096 * (n + 2)) argv = .ok (some sp, m')) ↔
      argv.length ≤ L.maxArg ∧ stackNeed argv ≤ 4096 := by
  have hpage : StackPage L m₀ m frame root n (pte2pa (entry m.mem root (n + 1))) := ⟨h, rfl⟩
  by_cases hshort : ∀ arg ∈ argv, arg.length < 4096
  · rcases hpage.execArgs hshort with ⟨hcount, hneed, m', hexec, -⟩ | ⟨hwhy, m', hexec⟩
    · exact iff_of_true ⟨_, m', hexec⟩ ⟨hcount, hneed⟩
    · refine iff_of_false ?_ (by omega)
      rintro ⟨sp, m'', hsome⟩
      rw [hexec] at hsome
      cases hsome
  · simp only [not_forall, not_lt, exists_prop] at hshort
    have hpages : pages (4096 * (n + 2)) = n + 2 := by rw [Nat.mul_comm, pages_mul]
    have htop := h.size_lt
    have hlast : 4096 * trapframe < 2 ^ 38 := by decide
    have hbase : u64 (((4096 * (n + 2) : ℕ) : Int) - pgSize) = 4096 * (n + 1) := by
      rw [u64, pgSize]
      omega
    refine iff_of_false ?_ ?_
    · rintro ⟨sp, m', hsome⟩
      obtain ⟨m'', hnone⟩ := h.pushArgs_long
        (show 4096 * (n + 1) + 4096 = 4096 * pages (4096 * (n + 2)) by omega) hshort
        (4096 * (n + 2)) []
      rw [execArgs] at hsome
      simp only [hbase, hnone, ok_bind] at hsome
      cases hsome
    · rintro ⟨-, hneed⟩
      obtain ⟨arg, harg, hlength⟩ := hshort
      have hmem : arg.length + 1 ∈ argLengths argv := List.mem_map.mpr ⟨arg, harg, rfl⟩
      have hpart := le_total_of_mem (show 0 < 16 by decide) hmem
      rw [stackNeed] at hneed
      omega

end Arguments

/-- The mirror of the new image cannot be installed: the image reaches `PLIC`, or the free
pages are enough for the image and not for the tables of its mirror. -/
structure Stranded (L : Layout) (m : Machine) (kern : ℕ) (ip : Option Inode)
    (argv : List (List (BitVec 8))) : Prop where
  argc : argv.length ≤ L.maxArg
  stack : stackNeed argv ≤ 4096
  image : ∃ inode sz, ip = some inode ∧ IsElf inode ∧ imageSize inode = some sz ∧
    Affords m (pages sz + 2) ∧ (L.plic * 4096 < 4096 * (pages sz + 2) ∨
      m.free.length < imageCost (pages sz + 2) + kernNeed m kern 0 (4096 * (pages sz + 2)))

/-- What is expected of a failed `exec`. -/
structure Unharmed (m m' : Machine) (p p' : Proc) (frame user kern : ℕ) : Prop where
  pagetable : p'.pagetable = p.pagetable
  kPagetable : p'.kPagetable = p.kPagetable
  trapframe : p'.trapframe = p.trapframe
  sz : p'.sz = p.sz
  name : p'.name = p.name
  registers : m'.mem frame = m.mem frame
  userMap : ∀ vpn, vpn < 2 ^ 26 → entry m'.mem user vpn = entry m.mem user vpn
  kernMap : ∀ vpn, vpn < 2 ^ 26 → entry m'.mem kern vpn = entry m.mem kern vpn
  notFreed : ∀ root, p'.pagetable = some root → root ∉ m'.free
  back : ∀ page ∈ m.free, page ∈ m'.free ∨ page ∈ tables m'.mem kern

section Failure

variable {L : Layout} {m : Machine} {p : Proc} {frame user kern : ℕ} {ip : Option Inode}
  {argv : List (List (BitVec 8))}

/-- What a call that gets to the commit has found and taken. -/
theorem Staged.demand {inode : Inode} {root sz sp : ℕ} {m₁ m₂ m₃ m₄ : Machine}
    (h : Staged L m frame inode argv root sz sp m₁ m₂ m₃ m₄) (hlive : Live L m p frame user kern)
    (hapart : Apart m (owned m p))
    (hnull : 0 ∉ m.free) :
    imageSize inode = some sz ∧ Affords m (pages sz + 2) ∧ argv.length ≤ L.maxArg ∧
      stackNeed argv ≤ 4096 ∧ m.free.length = m₄.free.length + imageCost (pages sz + 2) := by
  obtain ⟨himage₁, ht₁⟩ := procPagetable_ready hlive hapart hnull h.table
  obtain ⟨hsize, ht₂⟩ := (ht₁.execLoad inode _ _ himage₁).passed sz m₂ h.load
  have hpages : pages (4096 * (pages sz + 2)) = pages sz + 2 := by rw [Nat.mul_comm, pages_mul]
  have htop := h.ready.top
  rw [hpages] at htop
  have hcount : m.free.length = m₄.free.length + imageCost (pages sz + 2) := by
    obtain ⟨pushed, m₄', hargs, -, hfree⟩ := h.ready.execArgs argv
    rw [h.args] at hargs
    cases hargs
    rcases (load_ready hlive hapart hnull h.table h.load).execStack with
      ⟨m₃', hstack, -, hlength⟩ | ⟨m₃', hstack, -⟩ | ⟨-, -, e, hstack⟩
    · rw [h.stack] at hstack
      cases hstack
      have hneed := ht₂.need (Nat.le_add_right (pages sz) 2)
      have htaken := ht₂.count
      rw [userNeed, newVpns, hpages] at hlength
      rw [hfree]
      omega
    · rw [h.stack] at hstack
      cases hstack
    · rw [h.stack] at hstack
      cases hstack
  obtain ⟨hargc, hstack⟩ := (execArgs_fits h.ready).mp ⟨sp, m₄, h.args⟩
  exact ⟨hsize, ⟨htop, by omega⟩, hargc, hstack, hcount⟩

/-- A call gets to the commit when the file and the arguments are as they should be and there
is room for the image. -/
theorem exists_staged {inode : Inode} {sz : ℕ} (hlive : Live L m p frame user kern)
    (hapart : Apart m (owned m p))
    (hnull : 0 ∉ m.free) (helf : IsElf inode) (hsize : imageSize inode = some sz)
    (hroom : Affords m (pages sz + 2)) (hargc : argv.length ≤ L.maxArg)
    (hneed : stackNeed argv ≤ 4096) :
    ∃ root sp m₁ m₂ m₃ m₄, Staged L m frame inode argv root sz sp m₁ m₂ m₃ m₄ := by
  have hbase := hapart.mono (Set.empty_subset _)
  rcases procPagetable_spec L hbase hlive.frame_lt with ⟨root, m₁, htable, -⟩ | ⟨-, -, -, hfew⟩
  · obtain ⟨himage₁, ht₁⟩ := procPagetable_ready hlive hapart hnull htable
    have hgauged := ht₁.execLoad inode (elfhdr (inode.readi 0 elfSize)).phnum
      (u32 (elfhdr (inode.readi 0 elfSize)).phoff) himage₁
    obtain ⟨m₂, hload⟩ := hgauged.passes sz hsize (hroom.mono (Nat.le_add_right _ 2))
    obtain ⟨-, ht₂⟩ := hgauged.passed sz m₂ hload
    have hpages : pages (4096 * (pages sz + 2)) = pages sz + 2 := by rw [Nat.mul_comm, pages_mul]
    have hmore := ht₂.need (Nat.le_add_right (pages sz) 2)
    have htaken := ht₂.count
    have henough := hroom.2
    rcases (load_ready hlive hapart hnull htable hload).execStack with
      ⟨m₃, hstack, h₃, -⟩ | ⟨-, -, -, hshort⟩ | ⟨-, hlarge, -⟩
    · obtain ⟨sp, m₄, hargs⟩ := (execArgs_fits h₃).mpr ⟨hargc, hneed⟩
      obtain ⟨pushed, m₄', hargs', h₄, -⟩ := h₃.execArgs argv
      rw [hargs] at hargs'
      cases hargs'
      exact ⟨root, sp, m₁, m₂, m₃, m₄, helf, htable, hload, hstack, hargs, h₃, h₄⟩
    · have hfew := hshort hroom.1
      rw [userNeed, newVpns, hpages] at hfew
      omega
    · exact absurd hroom.1 (by omega)
  · have hleast := (imageCost_mono (Nat.zero_le (pages sz + 2))).trans hroom.2
    rw [imageCost, Finset.range_zero, Finset.union_empty] at hleast
    omega

/-- A call that fails before the commit leaves the process as it was. -/
theorem Moves.unharmed {m' : Machine} (h : Moves ∅ ∅ m m') (hlive : Live L m p frame user kern)
    (hapart : Apart m (owned m p)) : Unharmed m m' p p frame user kern := by
  have hsame : ∀ page ∈ owned m p, m'.mem page = m.mem page := fun page hpage =>
    h.frame page (Set.notMem_empty page) fun hfree => hapart.apart page hfree hpage
  have hfree : ∀ page, page ∈ m'.free ↔ page ∈ m.free := by
    intro page
    simpa using h.conserve page
  have hframe : frame ∈ owned m p := Or.inl hlive.trapframe
  refine ⟨rfl, rfl, rfl, rfl, rfl, hsame frame hframe, ?_, ?_, ?_, ?_⟩
  · intro vpn _
    exact entry_frame (fun page hpage => hsame page (hlive.tables_subset (Or.inl hpage))) vpn
  · intro vpn _
    exact entry_frame (fun page hpage => hsame page (hlive.tables_subset (Or.inr hpage))) vpn
  · intro root hroot hmem
    rw [hlive.pagetable] at hroot
    cases hroot
    exact hapart.apart user ((hfree user).mp hmem)
      (hlive.tables_subset (Or.inl (root_mem_nodes 2)))
  · exact fun page hpage => Or.inl ((hfree page).mpr hpage)

/-- Without room for the mirror the call fails at the commit, and the process points to a page
table that has been freed. -/
theorem Stranded.harmful (h : Stranded L m kern ip argv) (hlive : Live L m p frame user kern)
    (hapart : Apart m (owned m p))
    (hnull : 0 ∉ m.free) (path : List Char) :
    ∃ p' m', exec L m p ip path argv = .ok (none, p', m') ∧ p'.pagetable ≠ p.pagetable := by
  obtain ⟨hargc, hneed, inode, sz, rfl, helf, hsize, hroom, hwhy⟩ := h
  obtain ⟨root, sp, m₁, m₂, m₃, m₄, hstaged⟩ :=
    exists_staged hlive hapart hnull helf hsize hroom hargc hneed
  obtain ⟨-, -, -, -, hcount⟩ := hstaged.demand hlive hapart hnull
  rcases hstaged.image.execCommit hlive hapart sp (elfhdr (inode.readi 0 elfSize)).entry
    argv.length path with ⟨-, -, -, hlimit, henough⟩ | ⟨⟨m', hcommit⟩, -⟩
  · omega
  · refine ⟨_, m', (hstaged.exec_eq hlive.trapframe path).trans hcommit, ?_⟩
    intro hsame
    have hroot : user = root := Option.some.inj (hlive.pagetable.symm.trans hsame.symm)
    obtain ⟨-, howned, haway, -⟩ := hstaged.image.beside hlive hapart
    have huser : user ∈ owned m₄ p := by
      rw [howned]
      exact hlive.tables_subset (Or.inl (root_mem_nodes 2))
    apply (haway user huser).1
    rw [hroot]
    exact Or.inl (root_mem_nodes 2)

/-- A call that fails before the commit changes nothing but free pages. -/
theorem exec_refused (hlive : Live L m p frame user kern) (hapart : Apart m (owned m p))
    (hnull : 0 ∉ m.free) (hnot : ¬ Stranded L m kern ip argv) {path : List Char} {p' : Proc}
    {m' : Machine} (hexec : exec L m p ip path argv = .ok (none, p', m')) :
    p' = p ∧ Moves ∅ ∅ m m' := by
  rcases exec_stages hlive hapart hnull ip path argv with ⟨m'', hfail, hmoves⟩ |
    ⟨inode, root, sz, sp, m₁, m₂, m₃, m₄, rfl, hstaged⟩ | ⟨-, e, hpanic⟩
  · rw [hfail] at hexec
    cases hexec
    exact ⟨rfl, hmoves⟩
  · obtain ⟨hsize, hroom, hargc, hneed, hcount⟩ := hstaged.demand hlive hapart hnull
    rw [hstaged.exec_eq hlive.trapframe path] at hexec
    rcases hstaged.image.execCommit hlive hapart sp (elfhdr (inode.readi 0 elfSize)).entry
      argv.length path with ⟨m'', hcommit, -⟩ | ⟨-, hwhy⟩
    · rw [hcommit] at hexec
      cases hexec
    · exact absurd ⟨hargc, hneed, inode, sz, rfl, hstaged.header, hsize, hroom, by omega⟩ hnot
  · rw [hpanic] at hexec
    cases hexec

/-- A failed `exec` leaves the process as it was exactly when it is not for want of tables of
the mirror, or of address space for it, that it fails. -/
theorem exec_unharmed_iff (hlive : Live L m p frame user kern) (hapart : Apart m (owned m p))
    (hnull : 0 ∉ m.free)
    (ip : Option Inode) (path : List Char) (argv : List (List (BitVec 8))) :
    (∀ p' m', exec L m p ip path argv = .ok (none, p', m') → Unharmed m m' p p' frame user kern) ↔
      ¬ Stranded L m kern ip argv := by
  constructor
  · intro hsafe hstranded
    obtain ⟨p', m', hexec, hne⟩ := hstranded.harmful hlive hapart hnull path
    exact hne (hsafe p' m' hexec).pagetable
  · intro hnot p' m' hexec
    obtain ⟨rfl, hmoves⟩ := exec_refused hlive hapart hnull hnot hexec
    exact hmoves.unharmed hlive hapart

/-- A process without memory beside seven free pages: enough for the image of a file without
segments, and not for the table of its mirror. -/
theorem exists_stranded : ∃ (m : Machine) (p : Proc) (frame user kern : ℕ),
    Live virt m p frame user kern ∧ Apart m (owned m p) ∧ 0 ∉ m.free ∧
      Stranded virt m kern (some bareElf) [] := by
  obtain ⟨m₀, m, p, frame, user, kern, hfresh, hstack, hapart, hnull, hfree⟩ :=
    exists_fresh virt (by decide) (show 7 < 2 ^ 51 by decide)
  have hlo : virt.phystop ≤ p.kstack := by
    rw [hstack]
    exact virt.kstack_ge 0 (by decide)
  have hlive := hfresh.live hlo (show ProcState.runnable ≠ .unused by decide)
  obtain ⟨hlength, hmagic, hphnum⟩ := bareElf_header
  have hsize : imageSize bareElf = some 0 := by
    rw [imageSize, hphnum, segmentsSize]
  have hcost : imageCost (pages 0 + 2) = 7 := by decide
  refine ⟨m, _, frame, user, kern, hlive, hapart, hnull, by decide, by decide, bareElf, 0, rfl,
    ⟨hlength, hmagic⟩, hsize, ⟨by decide, by rw [hcost, hfree]⟩, Or.inr ?_⟩
  rw [hcost, hfree, kernNeed, hfresh.kernMissing]
  apply Nat.lt_add_of_pos_right
  rw [Finset.card_pos]
  refine ⟨pathOf 0, ?_⟩
  rw [Finset.mem_sdiff]
  refine ⟨by decide, kernel_tables_high (by decide) ?_⟩
  rw [hstack]
  decide

/-- The same with three free pages: the call fails before the commit. -/
theorem exists_refused : ∃ (m m' : Machine) (p p' : Proc) (frame user kern : ℕ),
    Live virt m p frame user kern ∧ Apart m (owned m p) ∧ 0 ∉ m.free ∧
      ¬ Stranded virt m kern (some bareElf) [] ∧
      exec virt m p (some bareElf) [] [] = .ok (none, p', m') := by
  obtain ⟨m₀, m, p, frame, user, kern, hfresh, hstack, hapart, hnull, hfree⟩ :=
    exists_fresh virt (by decide) (show 3 < 2 ^ 51 by decide)
  have hlo : virt.phystop ≤ p.kstack := by
    rw [hstack]
    exact virt.kstack_ge 0 (by decide)
  have hlive := hfresh.live hlo (show ProcState.runnable ≠ .unused by decide)
  have hleast : imageCost (0 + 2) = 7 := by decide
  have hpoor : ∀ sz, ¬ Affords m (pages sz + 2) := by
    intro sz hroom
    have hmore := imageCost_mono (Nat.add_le_add_right (Nat.zero_le (pages sz)) 2)
    have henough := hroom.2
    omega
  have hnot : ¬ Stranded virt m kern (some bareElf) [] := by
    rintro ⟨-, -, inode, sz, -, -, -, hroom, -⟩
    exact hpoor sz hroom
  rcases exec_stages hlive hapart hnull (some bareElf) [] [] with ⟨m', hfail, -⟩ |
    ⟨inode, root, sz, sp, m₁, m₂, m₃, m₄, -, hstaged⟩ | ⟨hmany, -⟩
  · exact ⟨m, m', _, _, frame, user, kern, hlive, hapart, hnull, hnot, hfail⟩
  · exact absurd (hstaged.demand hlive hapart hnull).2.1 (hpoor sz)
  · rw [trapframe, hfree] at hmany
    omega

theorem exec_unharmed_iff_bareElf :
    (∃ (m : Machine) (p : Proc) (frame user kern : ℕ), Live virt m p frame user kern ∧
      ¬ ∀ p' m', exec virt m p (some bareElf) [] [] = .ok (none, p', m') →
        Unharmed m m' p p' frame user kern) ∧
    ∃ (m m' : Machine) (p p' : Proc) (frame user kern : ℕ), Live virt m p frame user kern ∧
      exec virt m p (some bareElf) [] [] = .ok (none, p', m') ∧
      Unharmed m m' p p' frame user kern := by
  constructor
  · obtain ⟨m, p, frame, user, kern, hlive, hapart, hnull, hstranded⟩ := exists_stranded
    refine ⟨m, p, frame, user, kern, hlive, fun hall => ?_⟩
    exact (exec_unharmed_iff hlive hapart hnull _ _ _).mp hall hstranded
  · obtain ⟨m, m', p, p', frame, user, kern, hlive, hapart, hnull, hnot, hexec⟩ := exists_refused
    exact ⟨m, m', p, p', frame, user, kern, hlive, hexec,
      (exec_unharmed_iff hlive hapart hnull _ _ _).mpr hnot p' m' hexec⟩

theorem exec_not_unharmed : ¬ ∀ (L : Layout) (m : Machine) (p : Proc) (frame user kern : ℕ)
    (ip : Option Inode) (path : List Char) (argv : List (List (BitVec 8))),
    Live L m p frame user kern → Apart m (owned m p) → 0 ∉ m.free →
    ∀ p' m', exec L m p ip path argv = .ok (none, p', m') →
      Unharmed m m' p p' frame user kern := by
  intro hall
  obtain ⟨m, p, frame, user, kern, hlive, hapart, hnull, hstranded⟩ := exists_stranded
  obtain ⟨p', m', hexec, hne⟩ := hstranded.harmful hlive hapart hnull []
  exact hne (hall virt m p frame user kern _ _ _ hlive hapart hnull p' m' hexec).pagetable

end Failure

end OperateSystem.Vm

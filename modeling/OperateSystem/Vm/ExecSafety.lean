import OperateSystem.Vm.Commit
import OperateSystem.Vm.Gauge

/-!
# `exec` on any file

Whatever the file holds, `exec` comes to an end without a panic: it fails before the
commit and gives all pages of the image back, it fails at the commit, or it replaces
the image.
-/

namespace OperateSystem.Vm

open OperateSystem.PointerTree

/-- The file begins with the header of an ELF file. -/
def IsElf (ip : Inode) : Prop :=
  (ip.readi 0 elfSize).length = elfSize ∧ (elfhdr (ip.readi 0 elfSize)).magic = elfMagic

/-- The stages of a call of `exec` that gets to the commit: the page table, the loaded
file of `sz` bytes, the stack and the arguments. -/
structure Staged (L : Layout) (m : Machine) (frame : ℕ) (ip : Inode)
    (argv : List (List (BitVec 8))) (root sz sp : ℕ) (m₁ m₂ m₃ m₄ : Machine) : Prop where
  header : IsElf ip
  table : procPagetable L m frame = .ok (some root, m₁)
  load : execLoad root ip (elfhdr (ip.readi 0 elfSize)).phnum
    (u32 (elfhdr (ip.readi 0 elfSize)).phoff) 0 m₁ = .ok (true, sz, m₂)
  stack : execStack m₂ root sz = .ok (true, 4096 * (pages sz + 2), m₃)
  args : execArgs L m₃ root (4096 * (pages sz + 2)) argv = .ok (some sp, m₄)
  ready : Image L m m₃ frame root (4096 * (pages sz + 2)) {pages sz}
  image : Image L m m₄ frame root (4096 * (pages sz + 2)) {pages sz}

/-- What becomes of the process when its image is replaced. -/
def replaced (p : Proc) (path : List Char) (root sz : ℕ) : Proc :=
  { p with name := safestrcpy (baseName path), pagetable := some root, sz := sz }

section Exec

variable {L : Layout} {m : Machine} {p : Proc} {frame user kern : ℕ}

/-- A call that gets through all stages ends with the commit. -/
theorem Staged.exec_eq {ip : Inode} {argv : List (List (BitVec 8))} {root sz sp : ℕ}
    {m₁ m₂ m₃ m₄ : Machine} (h : Staged L m frame ip argv root sz sp m₁ m₂ m₃ m₄)
    (hframe : p.trapframe = some frame) (path : List Char) :
    exec L m p (some ip) path argv = execCommit L m₄ p root (4096 * (pages sz + 2)) sp
      (elfhdr (ip.readi 0 elfSize)).entry argv.length path := by
  obtain ⟨hlength, hmagic⟩ := h.header
  rw [exec]
  dsimp only
  rw [if_neg (not_not.mpr hlength), if_neg (not_not.mpr hmagic), deref_of_eq hframe, ok_bind,
    h.table, ok_bind]
  dsimp only
  rw [execImage, h.load, ok_bind]
  dsimp only
  rw [if_neg (by decide), h.stack, ok_bind]
  dsimp only
  rw [if_neg (by decide), h.args, ok_bind]

/-- `exec` from the loading of the file on: it fails and gives the image back, gets
through all stages, or panics for want of address space. -/
theorem execImage_outcome {root : ℕ} {m₁ : Machine} {inode : Inode} (helf : IsElf inode)
    (htable : procPagetable L m frame = .ok (some root, m₁))
    (himage : Image L m m₁ frame root 0 ∅) (path : List Char) (argv : List (List (BitVec 8))) :
    (∃ m', execImage L m₁ p root inode (elfhdr (inode.readi 0 elfSize)) path argv
        = .ok (none, p, m') ∧ Moves ∅ ∅ m m') ∨
    (∃ sz sp m₂ m₃ m₄, Staged L m frame inode argv root sz sp m₁ m₂ m₃ m₄) ∨
    (trapframe < m.free.length ∧
      ∃ e, execImage L m₁ p root inode (elfhdr (inode.readi 0 elfSize)) path argv = .error e) := by
  rw [execImage]
  have hloads := himage.execLoad inode (elfhdr (inode.readi 0 elfSize)).phnum
    (u32 (elfhdr (inode.readi 0 elfSize)).phoff)
  cases hload : execLoad root inode (elfhdr (inode.readi 0 elfSize)).phnum
    (u32 (elfhdr (inode.readi 0 elfSize)).phoff) 0 m₁ with
  | error e =>
      rw [hload] at hloads
      exact Or.inr (Or.inr ⟨hloads, e, rfl⟩)
  | ok result =>
      obtain ⟨ok, sz, m₂⟩ := result
      rw [hload] at hloads
      rw [ok_bind]
      cases ok with
      | false => exact Or.inl (hloads.execBad p)
      | true =>
          rcases hloads.execStack with ⟨m₃, hstack, h₃, -⟩ | ⟨m₃, hstack, h₃, -⟩ |
            ⟨hmany, -, e, hstack⟩
          · obtain ⟨pushed, m₄, hargs, h₄, -⟩ := h₃.execArgs argv
            simp only [Bool.true_eq_false, if_false, hstack, ok_bind, hargs]
            cases pushed with
            | none => exact Or.inl (h₄.execBad p)
            | some sp =>
                exact Or.inr (Or.inl
                  ⟨sz, sp, m₂, m₃, m₄, helf, htable, hload, hstack, hargs, h₃, h₄⟩)
          · left
            simp only [Bool.true_eq_false, if_false, hstack, ok_bind, if_true]
            exact h₃.execBad p
          · refine Or.inr (Or.inr ⟨hmany, e, ?_⟩)
            simp only [Bool.true_eq_false, if_false, hstack, error_bind]

/-- A call of `exec` fails before the commit and leaves everything as it was, gets to the
commit, or panics for want of address space. -/
theorem exec_stages (hlive : Live L m p frame user kern) (hapart : Apart m (owned m p))
    (hnull : 0 ∉ m.free)
    (ip : Option Inode) (path : List Char) (argv : List (List (BitVec 8))) :
    (∃ m', exec L m p ip path argv = .ok (none, p, m') ∧ Moves ∅ ∅ m m') ∨
    (∃ inode root sz sp m₁ m₂ m₃ m₄, ip = some inode ∧
      Staged L m frame inode argv root sz sp m₁ m₂ m₃ m₄) ∨
    (trapframe < m.free.length ∧ ∃ e, exec L m p ip path argv = .error e) := by
  have hbase := hapart.mono (Set.empty_subset _)
  cases ip with
  | none => exact Or.inl ⟨m, rfl, Moves.refl hbase⟩
  | some inode =>
      rw [exec]
      dsimp only
      split
      · exact Or.inl ⟨m, rfl, Moves.refl hbase⟩
      · rename_i hlength
        split
        · exact Or.inl ⟨m, rfl, Moves.refl hbase⟩
        · rename_i hmagic
          have helf : IsElf inode := ⟨not_not.mp hlength, not_not.mp hmagic⟩
          rw [deref_of_eq hlive.trapframe, ok_bind]
          rcases procPagetable_spec L hbase hlive.frame_lt with
            ⟨root, m₁, htable, hbuilt⟩ | ⟨m₁, htable, hmoves, -⟩
          · rw [htable, ok_bind]
            rcases execImage_outcome helf htable (hbuilt.image hbase hnull hlive.frame_lt) path
                argv with
              hfail | ⟨sz, sp, m₂, m₃, m₄, hstaged⟩ | hpanic
            · exact Or.inl hfail
            · exact Or.inr (Or.inl ⟨inode, root, sz, sp, m₁, m₂, m₃, m₄, rfl, hstaged⟩)
            · exact Or.inr (Or.inr hpanic)
          · rw [htable]
            exact Or.inl ⟨m₁, rfl, hmoves⟩

/-- A call of `exec` fails, replaces the image, or panics for want of address space. -/
theorem exec_outcome (hlive : Live L m p frame user kern) (hapart : Apart m (owned m p))
    (hnull : 0 ∉ m.free)
    (ip : Option Inode) (path : List Char) (argv : List (List (BitVec 8))) :
    (∃ p' m', exec L m p ip path argv = .ok (none, p', m')) ∨
    (∃ inode root sz sp m₁ m₂ m₃ m₄ m', ip = some inode ∧
      Staged L m frame inode argv root sz sp m₁ m₂ m₃ m₄ ∧
      exec L m p ip path argv
        = .ok (some argv.length, replaced p path root (4096 * (pages sz + 2)), m') ∧
      Committed L m m₄ m' p (replaced p path root (4096 * (pages sz + 2))) frame root kern sp
        (elfhdr (inode.readi 0 elfSize)).entry) ∨
    (trapframe < m.free.length ∧ ∃ e, exec L m p ip path argv = .error e) := by
  rcases exec_stages hlive hapart hnull ip path argv with ⟨m', hfail, -⟩ |
    ⟨inode, root, sz, sp, m₁, m₂, m₃, m₄, rfl, hstaged⟩ | hpanic
  · exact Or.inl ⟨p, m', hfail⟩
  · have hexec := hstaged.exec_eq hlive.trapframe path
    rcases hstaged.image.execCommit hlive hapart sp (elfhdr (inode.readi 0 elfSize)).entry
      argv.length path with ⟨m', hcommit, hdone, -⟩ | ⟨⟨m', hcommit⟩, -⟩
    · exact Or.inr (Or.inl ⟨inode, root, sz, sp, m₁, m₂, m₃, m₄, m', rfl, hstaged,
        hexec.trans hcommit, hdone⟩)
    · exact Or.inl ⟨_, m', hexec.trans hcommit⟩
  · exact Or.inr (Or.inr hpanic)

/-- The image when the file has been loaded. -/
theorem load_ready {inode : Inode} {root sz : ℕ} {m₁ m₂ : Machine}
    (hlive : Live L m p frame user kern) (hapart : Apart m (owned m p))
    (hnull : 0 ∉ m.free)
    (htable : procPagetable L m frame = .ok (some root, m₁))
    (hload : execLoad root inode (elfhdr (inode.readi 0 elfSize)).phnum
      (u32 (elfhdr (inode.readi 0 elfSize)).phoff) 0 m₁ = .ok (true, sz, m₂)) :
    Image L m m₂ frame root sz ∅ := by
  have hbase := hapart.mono (Set.empty_subset _)
  rcases procPagetable_spec L hbase hlive.frame_lt with
    ⟨root', m₁', htable', hbuilt⟩ | ⟨m₁', htable', -, -⟩
  · rw [htable'] at htable
    cases htable
    have hloads := (hbuilt.image hbase hnull hlive.frame_lt).execLoad inode
      (elfhdr (inode.readi 0 elfSize)).phnum (u32 (elfhdr (inode.readi 0 elfSize)).phoff)
    rw [hload] at hloads
    exact hloads
  · rw [htable'] at htable
    cases htable

/-- The image when it has its stack. -/
theorem stack_ready {inode : Inode} {root sz sz' : ℕ} {m₁ m₂ m₃ : Machine}
    (hlive : Live L m p frame user kern) (hapart : Apart m (owned m p))
    (hnull : 0 ∉ m.free)
    (htable : procPagetable L m frame = .ok (some root, m₁))
    (hload : execLoad root inode (elfhdr (inode.readi 0 elfSize)).phnum
      (u32 (elfhdr (inode.readi 0 elfSize)).phoff) 0 m₁ = .ok (true, sz, m₂))
    (hstack : execStack m₂ root sz = .ok (true, sz', m₃)) :
    sz' = 4096 * (pages sz + 2) ∧ Image L m m₃ frame root (4096 * (pages sz + 2)) {pages sz} := by
  rcases (load_ready hlive hapart hnull htable hload).execStack with
    ⟨m₃', hok, himage, -⟩ | ⟨m₃', hfail, -⟩ | ⟨-, -, e, hpanic⟩
  · rw [hok] at hstack
    cases hstack
    exact ⟨rfl, himage⟩
  · rw [hfail] at hstack
    cases hstack
  · rw [hpanic] at hstack
    cases hstack

/-- With fewer free pages than there are pages below `PLIC`, `exec` does not panic on any
file, and what it has loaded when it comes to the stack is a prefix of the address
space.  The free pages may end at any point of the call. -/
theorem exec_no_panic (hlive : Live L m p frame user kern) (hapart : Apart m (owned m p))
    (hnull : 0 ∉ m.free)
    (hfree : m.free.length < L.plic) (ip : Option Inode) (path : List Char)
    (argv : List (List (BitVec 8))) :
    (∃ result, exec L m p ip path argv = .ok result) ∧
    ∀ inode root sz m₁ m₂, ip = some inode → procPagetable L m frame = .ok (some root, m₁) →
      execLoad root inode (elfhdr (inode.readi 0 elfSize)).phnum
        (u32 (elfhdr (inode.readi 0 elfSize)).phoff) 0 m₁ = .ok (true, sz, m₂) →
      ∀ vpn, vpn < maxVa / pgSize → (Valid (entry m₂.mem root vpn) ↔
        vpn * pgSize < pgRoundUp sz ∨ vpn = trapframe ∨ vpn = trampoline) := by
  have hplic := L.plic_lt
  constructor
  · rcases exec_outcome hlive hapart hnull ip path argv with
      ⟨p', m', hexec⟩ | ⟨_, _, _, _, _, _, _, _, _, -, -, hexec, -⟩ | ⟨hmany, -⟩
    · exact ⟨_, hexec⟩
    · exact ⟨_, hexec⟩
    · rw [trapframe] at hmany
      omega
  · intro inode root sz m₁ m₂ _ htable hload vpn hvpn
    have himage := load_ready hlive hapart hnull htable hload
    have hsize := himage.size_lt
    have hround : pgRoundUp sz = pages sz * 4096 := by
      apply pgRoundUp_pages
      rw [trapframe] at hsize
      omega
    rw [himage.valid_iff (by rw [maxVa, pgSize] at hvpn; omega), hround, pgSize]
    have hlt : vpn < pages sz ↔ vpn * 4096 < pages sz * 4096 := by omega
    rw [hlt]

/-- A file is given by its contents. -/
def Inode.ofBytes (bytes : List (BitVec 8)) : Inode where
  readi off n := (bytes.drop off).take n
  readi_le off n := by simp

/-- An ELF file with a segment of four bytes, which takes eight bytes of memory from address 0
on. -/
def segmentElf : Inode := Inode.ofBytes
  (([0x7F, 0x45, 0x4C, 0x46] ++ List.replicate 28 0 ++ [64] ++ List.replicate 23 0 ++ [1]
    ++ List.replicate 7 0)
  ++ ([1] ++ List.replicate 7 0 ++ [120] ++ List.replicate 23 0 ++ [4] ++ List.replicate 7 0
    ++ [8] ++ List.replicate 15 0)
  ++ [0x13, 0, 0, 0])

/-- The loader passes, and page 0 is the only one mapped below the trapframe. -/
theorem exec_no_panic_segmentElf : ∃ (m m₁ m₂ : Machine) (p : Proc) (frame user kern root : ℕ),
    Live virt m p frame user kern ∧ Apart m (owned m p) ∧ m.free.length < virt.plic ∧
    procPagetable virt m frame = .ok (some root, m₁) ∧
    execLoad root segmentElf (elfhdr (segmentElf.readi 0 elfSize)).phnum
      (u32 (elfhdr (segmentElf.readi 0 elfSize)).phoff) 0 m₁ = .ok (true, 8, m₂) ∧
    (∃ result, exec virt m p (some segmentElf) [] [] = .ok result) ∧
    ∀ vpn, vpn < maxVa / pgSize → (Valid (entry m₂.mem root vpn) ↔
      vpn * pgSize < pgRoundUp 8 ∨ vpn = trapframe ∨ vpn = trampoline) := by
  obtain ⟨m₀, m, p, frame, user, kern, hfresh, hstack, hapart, hnull, hfree⟩ :=
    exists_fresh virt (by decide) (show 100 < 2 ^ 51 by decide)
  have hlo : virt.phystop ≤ p.kstack := by
    rw [hstack]
    exact virt.kstack_ge 0 (by decide)
  have hlive := hfresh.live hlo (show ProcState.runnable ≠ .unused by decide)
  have hplic : m.free.length < virt.plic := by
    rw [hfree]
    decide
  have hsize : imageSize segmentElf = some 8 := by decide +kernel
  have hcost : imageCost (pages 8) = 6 := by decide +kernel
  have hbase := hapart.mono (Set.empty_subset _)
  rcases procPagetable_spec virt hbase hlive.frame_lt with
    ⟨root, m₁, htable, -⟩ | ⟨-, -, -, hshort⟩
  · obtain ⟨himage, htight⟩ := procPagetable_ready hlive hapart hnull htable
    obtain ⟨m₂, hload⟩ := (htight.execLoad segmentElf _ _ himage).passes 8 hsize
      ⟨by decide, by rw [hcost, hfree]; decide⟩
    obtain ⟨hok, hmapped⟩ := exec_no_panic hlive hapart hnull hplic (some segmentElf) [] []
    exact ⟨m, m₁, m₂, _, frame, user, kern, root, hlive, hapart, hplic, htable, hload, hok,
      hmapped segmentElf root 8 m₁ m₂ rfl htable hload⟩
  · have hfew : 1 + (tablesFor topVpns).card < 100 := by decide
    omega

/-- An ELF file without program headers. -/
def bareElf : Inode := Inode.ofBytes ([0x7F, 0x45, 0x4C, 0x46] ++ List.replicate 60 0)

theorem bareElf_header : (bareElf.readi 0 elfSize).length = elfSize ∧
    (elfhdr (bareElf.readi 0 elfSize)).magic = elfMagic ∧
    (elfhdr (bareElf.readi 0 elfSize)).phnum = 0 := by
  decide

end Exec

end OperateSystem.Vm

import OperateSystem.Core.DownStack
import OperateSystem.Vm.ExecSafety

/-!
# The arguments of a program

`exec` pushes the argument strings and then the array of pointers to them on the new
stack, which is a single page.  What can be read there afterwards is what was pushed,
and it fails exactly when the page or the array is too small.
-/

namespace OperateSystem.Vm

open OperateSystem.PointerTree OperateSystem.ByteStore OperateSystem.DownStack

/-- The lengths of the strings with their NULs. -/
def argLengths (argv : List (List (BitVec 8))) : List ℕ := argv.map fun arg => arg.length + 1

/-- What the arguments take from the stack: the strings and the array of pointers. -/
def stackNeed (argv : List (List (BitVec 8))) : ℕ :=
  total 16 (argLengths argv) + room 16 ((argv.length + 1) * 8)

/-- The array of pointers, with a null pointer at its end. -/
def pointerBytes (pointers : List ℕ) : List (BitVec 8) :=
  (pointers ++ [0]).flatMap fun pointer => wordBytes (BitVec.ofNat 64 pointer)

/-- The bytes of the page at virtual address `base`. -/
def bytesFrom (m : Machine) (page base : ℕ) : ℕ → BitVec 8 :=
  fun va => byteAt (m.mem page) (va - base)

/-- An image whose last two pages are the guard page, at `n`, and the stack page. -/
structure StackPage (L : Layout) (m₀ m : Machine) (frame root n page : ℕ) : Prop where
  image : Image L m₀ m frame root (4096 * (n + 2)) {n}
  page_eq : pte2pa (entry m.mem root (n + 1)) = page

section StackPage

variable {L : Layout} {m₀ m : Machine} {frame root n page : ℕ}

theorem StackPage.mem_targets (h : StackPage L m₀ m frame root n page) :
    page ∈ targets m.mem root (Set.Iio (pages (4096 * (n + 2)))) := by
  refine ⟨n + 1, ?_, h.page_eq⟩
  rw [Set.mem_Iio, Nat.mul_comm, pages_mul]
  omega

theorem StackPage.walkaddr (h : StackPage L m₀ m frame root n page) :
    walkaddr m root (4096 * (n + 1)) = .ok (some page) := by
  have hpages : pages (4096 * (n + 2)) = n + 2 := by rw [Nat.mul_comm, pages_mul]
  have hwalk := h.image.walkaddr_open (show n + 1 < pages (4096 * (n + 2)) by omega)
    (show 0 < 4096 by decide) (by simp)
  rw [Nat.add_zero, h.page_eq] at hwalk
  exact hwalk

/-- `copyout` to the stack page. -/
theorem StackPage.copyout (h : StackPage L m₀ m frame root n page) {a : ℕ}
    {src : List (BitVec 8)} (hsrc : src ≠ []) (hlo : 4096 * (n + 1) ≤ a)
    (hhi : a + src.length ≤ 4096 * (n + 2)) :
    ∃ m', copyout m root a src = .ok (true, m') ∧ StackPage L m₀ m' frame root n page ∧
      ∀ va, 4096 * (n + 1) ≤ va → va < 4096 * (n + 2) →
        bytesFrom m' page (4096 * (n + 1)) va
          = overwrite (bytesFrom m page (4096 * (n + 1))) a src va := by
  obtain ⟨ofs, rfl⟩ := Nat.exists_eq_add_of_le hlo
  have htarget := h.mem_targets
  refine ⟨m.write page ofs src, copyout_page (by omega) h.walkaddr hsrc (by omega),
    ⟨h.image.write htarget ofs src, ?_⟩, ?_⟩
  · rw [entry_frame]
    · exact h.page_eq
    · intro table htable
      apply write_of_ne
      rintro rfl
      obtain ⟨vpn, hvpn, heq⟩ := htarget
      rw [← heq] at htable
      exact h.image.space.apart vpn hvpn htable
  · intro va hge hlt
    obtain ⟨addr, rfl⟩ := Nat.exists_eq_add_of_le hge
    rw [bytesFrom, Nat.add_sub_cancel_left, byteAt_write (by omega) (by omega)]
    simp only [overwrite, bytesFrom, Nat.add_sub_cancel_left, Nat.add_le_add_iff_left,
      Nat.add_sub_add_left]

/-- What the loop over the arguments does: it pushes all of them, or there are too many or
they are too long. -/
theorem StackPage.pushArgs (h : StackPage L m₀ m frame root n page) {sp : ℕ} (hsp : sp % 16 = 0)
    (hlo : 4096 * (n + 1) ≤ sp) (hhi : sp ≤ 4096 * (n + 2)) {argv : List (List (BitVec 8))}
    (hargs : ∀ arg ∈ argv, arg.length < 4096) {ustack : List ℕ}
    (hcount : ustack.length ≤ L.maxArg) :
    (ustack.length + argv.length ≤ L.maxArg ∧
      4096 * (n + 1) + total 16 (argLengths argv) ≤ sp ∧
      ∃ m', pushArgs L root (4096 * (n + 1)) argv sp ustack m
          = .ok (some (sp - total 16 (argLengths argv),
            ustack ++ addresses 16 sp (argLengths argv)), m') ∧
        StackPage L m₀ m' frame root n page ∧
        (∀ va, sp ≤ va → va < 4096 * (n + 2) →
          bytesFrom m' page (4096 * (n + 1)) va = bytesFrom m page (4096 * (n + 1)) va) ∧
        Holds (bytesFrom m' page (4096 * (n + 1))) (sp - total 16 (argLengths argv)) sp
          (addresses 16 sp (argLengths argv)) (argv.map fun arg => arg ++ [0])) ∨
    ((L.maxArg < ustack.length + argv.length ∨
        sp < 4096 * (n + 1) + total 16 (argLengths argv)) ∧
      ∃ m', pushArgs L root (4096 * (n + 1)) argv sp ustack m = .ok (none, m')) := by
  induction argv generalizing sp ustack m with
  | nil =>
      refine Or.inl ⟨hcount, hlo, m, ?_, h, fun _ _ _ => rfl, List.Forall₂.nil⟩
      rw [Vm.pushArgs, argLengths, List.map_nil, addresses, total, Nat.sub_zero, List.append_nil]
  | cons arg argv ih =>
      have hlength := hargs arg (by simp)
      have hroom := le_room (n := arg.length + 1) (show 0 < 16 by decide)
      have htop := h.image.size_lt
      have hlast : 4096 * trapframe < 2 ^ 38 := by decide
      have hsub : u64 ((sp : Int) - (arg.length + 1)) = sp - (arg.length + 1) := by
        rw [u64]
        omega
      have hpush : sp - (arg.length + 1) - (sp - (arg.length + 1)) % 16
          = sp - room 16 (arg.length + 1) :=
        push_eq (by decide) hsp (by omega)
      have htotal : total 16 (argLengths (arg :: argv))
          = room 16 (arg.length + 1) + total 16 (argLengths argv) := rfl
      have haddresses : addresses 16 sp (argLengths (arg :: argv)) = (sp - room 16 (arg.length + 1))
          :: addresses 16 (sp - room 16 (arg.length + 1)) (argLengths argv) := rfl
      rw [Vm.pushArgs, htotal, haddresses, List.map_cons]
      by_cases hmany : L.maxArg ≤ ustack.length
      · refine Or.inr ⟨Or.inl ?_, m, if_pos hmany⟩
        rw [List.length_cons]
        omega
      · rw [if_neg hmany]
        simp only [hsub, hpush]
        by_cases hlow : sp - room 16 (arg.length + 1) < 4096 * (n + 1)
        · rw [if_pos hlow]
          refine Or.inr ⟨Or.inr ?_, m, rfl⟩
          omega
        · have hblock : (arg ++ [0]).length = arg.length + 1 := by simp
          have hge : 4096 * (n + 1) ≤ sp - room 16 (arg.length + 1) := by omega
          have hle : sp - room 16 (arg.length + 1) + (arg ++ [0]).length ≤ 4096 * (n + 2) := by
            omega
          obtain ⟨m₁, hcopy, h₁, hbytes₁⟩ := h.copyout (show arg ++ [0] ≠ [] by simp) hge hle
          rw [if_neg hlow, hcopy]
          simp only [ok_bind, Bool.true_eq_false, if_false]
          rcases ih h₁ (sub_room_mod hsp) (by omega) (by omega)
            (fun arg' harg' => hargs arg' (by simp [harg']))
            (show (ustack ++ [sp - room 16 (arg.length + 1)]).length ≤ L.maxArg by
              rw [List.length_append, List.length_singleton]; omega) with
            ⟨hcount', hfits, m', hrest, h', hbytes', hholds⟩ | ⟨hwhy, m', hrest⟩
          · left
            rw [List.length_append, List.length_singleton] at hcount'
            rw [List.length_cons, Nat.sub_add_eq]
            refine ⟨by omega, by omega, m', ?_, h', ?_,
              List.Forall₂.cons ⟨by omega, by omega, ?_⟩ ?_⟩
            · rw [hrest, List.append_assoc, List.singleton_append]
            · intro va hge hlt
              rw [hbytes' va (by omega) hlt, hbytes₁ va (by omega) hlt,
                overwrite_of_ge _ _ _ (by omega)]
            · -- The strings pushed later lie below this one.
              have hsame : slice (bytesFrom m' page (4096 * (n + 1)))
                  (sp - room 16 (arg.length + 1)) (arg ++ [0]).length
                  = slice (overwrite (bytesFrom m page (4096 * (n + 1)))
                    (sp - room 16 (arg.length + 1)) (arg ++ [0]))
                    (sp - room 16 (arg.length + 1)) (arg ++ [0]).length := by
                apply slice_congr
                intro va hge hlt
                rw [hbytes' va hge (by omega), hbytes₁ va (by omega) (by omega)]
              rw [hsame, slice_overwrite_self]
            · exact hholds.mono (le_refl _) (by omega)
          · right
            rw [List.length_append, List.length_singleton] at hwhy
            rw [List.length_cons]
            exact ⟨by omega, m', hrest⟩

theorem length_pointerBytes (pointers : List ℕ) :
    (pointerBytes pointers).length = (pointers.length + 1) * 8 := by
  simp only [pointerBytes, wordBytes, List.length_flatMap, List.length_map, List.length_range,
    List.map_const', List.sum_replicate_nat, List.length_append, List.length_singleton]

/-- What the argument part of `exec` does: the strings and the array are on the stack page, or
there are too many strings or the page is too small for them. -/
theorem StackPage.execArgs (h : StackPage L m₀ m frame root n page)
    {argv : List (List (BitVec 8))} (hargs : ∀ arg ∈ argv, arg.length < 4096) :
    (argv.length ≤ L.maxArg ∧ stackNeed argv ≤ 4096 ∧
      ∃ m', execArgs L m root (4096 * (n + 2)) argv
          = .ok (some (4096 * (n + 2) - stackNeed argv), m') ∧
        StackPage L m₀ m' frame root n page ∧
        slice (bytesFrom m' page (4096 * (n + 1))) (4096 * (n + 2) - stackNeed argv)
            ((argv.length + 1) * 8)
          = pointerBytes (addresses 16 (4096 * (n + 2)) (argLengths argv)) ∧
        Holds (bytesFrom m' page (4096 * (n + 1)))
          (4096 * (n + 2) - stackNeed argv + (argv.length + 1) * 8) (4096 * (n + 2))
          (addresses 16 (4096 * (n + 2)) (argLengths argv)) (argv.map fun arg => arg ++ [0])) ∨
    ((L.maxArg < argv.length ∨ 4096 < stackNeed argv) ∧
      ∃ m', execArgs L m root (4096 * (n + 2)) argv = .ok (none, m')) := by
  have htop := h.image.size_lt
  have hlast : 4096 * trapframe < 2 ^ 38 := by decide
  have hbase : u64 (((4096 * (n + 2) : ℕ) : Int) - pgSize) = 4096 * (n + 1) := by
    rw [u64, pgSize]
    omega
  rw [Vm.execArgs]
  simp only [hbase]
  rcases h.pushArgs (show 4096 * (n + 2) % 16 = 0 by omega) (by omega) (le_refl _) hargs
    (show ([] : List ℕ).length ≤ L.maxArg from Nat.zero_le _) with
    ⟨hcount, hfits, m₁, hpush, h₁, -, hholds⟩ | ⟨hwhy, m₁, hpush⟩
  · rw [List.nil_append] at hpush
    rw [List.length_nil, Nat.zero_add] at hcount
    have hlength : (addresses 16 (4096 * (n + 2)) (argLengths argv)).length = argv.length := by
      rw [length_addresses, argLengths, List.length_map]
    have hsteps : argv.length * 16 ≤ total 16 (argLengths argv) := by
      have hpos : ∀ k ∈ argLengths argv, 0 < k := by
        intro k hk
        obtain ⟨arg, -, rfl⟩ := List.mem_map.mp hk
        exact Nat.succ_pos _
      have hle := length_mul_le_total (show 0 < 16 by decide) hpos
      rwa [argLengths, List.length_map] at hle
    have hroom := le_room (n := (argv.length + 1) * 8) (show 0 < 16 by decide)
    have hsub : u64 (((4096 * (n + 2) - total 16 (argLengths argv) : ℕ) : Int)
        - ((argv.length : Int) + 1) * 8)
        = 4096 * (n + 2) - total 16 (argLengths argv) - (argv.length + 1) * 8 := by
      rw [u64]
      omega
    have hsp : 4096 * (n + 2) - total 16 (argLengths argv) - (argv.length + 1) * 8
        - (4096 * (n + 2) - total 16 (argLengths argv) - (argv.length + 1) * 8) % 16
        = 4096 * (n + 2) - stackNeed argv := by
      rw [push_eq (by decide) (sub_total_mod (by omega)) (by omega), stackNeed, Nat.sub_add_eq]
    simp only [hpush, ok_bind, hlength, hsub, hsp]
    by_cases hlow : 4096 * (n + 2) - stackNeed argv < 4096 * (n + 1)
    · right
      rw [if_pos hlow]
      refine ⟨Or.inr ?_, m₁, rfl⟩
      omega
    · left
      have harray : (pointerBytes (addresses 16 (4096 * (n + 2)) (argLengths argv))).length
          = (argv.length + 1) * 8 := by rw [length_pointerBytes, hlength]
      have hne : pointerBytes (addresses 16 (4096 * (n + 2)) (argLengths argv)) ≠ [] := by
        intro hnil
        rw [hnil, List.length_nil] at harray
        omega
      have hneed : stackNeed argv
          = total 16 (argLengths argv) + room 16 ((argv.length + 1) * 8) := rfl
      obtain ⟨m₂, hcopy, h₂, hbytes₂⟩ := h₁.copyout hne (Nat.le_of_not_lt hlow) (by omega)
      rw [if_neg hlow]
      rw [pointerBytes] at hcopy
      simp only [hcopy, ok_bind, Bool.true_eq_false, if_false]
      refine ⟨hcount, by omega, m₂, rfl, h₂, ?_, ?_⟩
      · rw [← harray]
        have hsame : slice (bytesFrom m₂ page (4096 * (n + 1))) (4096 * (n + 2) - stackNeed argv)
              (pointerBytes (addresses 16 (4096 * (n + 2)) (argLengths argv))).length
            = slice (overwrite (bytesFrom m₁ page (4096 * (n + 1)))
                (4096 * (n + 2) - stackNeed argv)
                (pointerBytes (addresses 16 (4096 * (n + 2)) (argLengths argv))))
              (4096 * (n + 2) - stackNeed argv)
              (pointerBytes (addresses 16 (4096 * (n + 2)) (argLengths argv))).length := by
          apply slice_congr
          intro va hge hlt
          exact hbytes₂ va (by omega) (by omega)
        rw [hsame, slice_overwrite_self]
      · -- The array lies below the strings.
        have hsame : ∀ va, 4096 * (n + 2) - total 16 (argLengths argv) ≤ va → va < 4096 * (n + 2) →
            bytesFrom m₂ page (4096 * (n + 1)) va = bytesFrom m₁ page (4096 * (n + 1)) va := by
          intro va hge hlt
          rw [hbytes₂ va (by omega) hlt, overwrite_of_ge _ _ _ (by omega)]
        exact (hholds.congr hsame).mono (by omega) (le_refl _)
  · right
    rw [List.length_nil, Nat.zero_add] at hwhy
    refine ⟨?_, m₁, ?_⟩
    · rw [stackNeed]
      omega
    · rw [hpush]
      rfl

end StackPage

/-- The arguments as a program finds them in its memory: below `sp` there is nothing, at `sp`
the array of pointers, and above it the strings. -/
structure Passed (m : Machine) (p : Proc) (frame root sp : ℕ) (pointers : List ℕ)
    (argv : List (List (BitVec 8))) : Prop where
  a1_eq : (m.mem frame a1).toNat = sp
  sp_eq : m.mem frame Vm.sp = m.mem frame a1
  aligned : sp % 16 = 0
  stack : p.sz % pgSize = 0 ∧ p.sz - pgSize ≤ sp ∧ sp < p.sz
  array : copyin m root sp ((argv.length + 1) * 8) = .ok (some (pointerBytes pointers))
  strings : List.Forall₂ (fun pointer arg =>
    copyin m root pointer (arg.length + 1) = .ok (some (arg ++ [0])) ∧
      sp + (argv.length + 1) * 8 ≤ pointer ∧ pointer + (arg.length + 1) ≤ p.sz) pointers argv
  disjoint : (pointers.zip argv).Pairwise fun area area' =>
    area'.1 + (area'.2.length + 1) ≤ area.1

section Passing

variable {L : Layout} {m : Machine} {p : Proc} {frame user kern : ℕ}

theorem slice_bytesFrom (m : Machine) (page base ofs len : ℕ) :
    slice (bytesFrom m page base) (base + ofs) len = m.read page ofs len := by
  apply List.ext_getElem?
  intro i
  rw [getElem?_slice, Machine.read, ← slice, getElem?_slice, bytesFrom,
    show base + ofs + i - base = ofs + i by omega]

/-- `copyin` from a page that the user may use. -/
theorem copyin_bytes {root page base a len : ℕ} (hbase : base % 4096 = 0)
    (hwalk : walkaddr m root base = .ok (some page)) (hlo : base ≤ a)
    (hhi : a + len ≤ base + 4096) :
    copyin m root a len = .ok (some (slice (bytesFrom m page base) a len)) := by
  obtain ⟨ofs, rfl⟩ := Nat.exists_eq_add_of_le hlo
  rw [slice_bytesFrom]
  exact copyin_page hbase hwalk (by omega)

/-- After the commit the stack page reads as before. -/
theorem Committed.stack_page {m₄ m' : Machine} {p' : Proc} {root n page sp entry : ℕ}
    (h : Committed L m m₄ m' p p' frame root kern sp entry) (hsz : p'.sz = 4096 * (n + 2))
    (hstack : StackPage L m m₄ frame root n page) :
    walkaddr m' root (4096 * (n + 1)) = .ok (some page) ∧
      ∀ base, bytesFrom m' page base = bytesFrom m₄ page base := by
  have htop := hstack.image.top
  have hlast : trapframe < 2 ^ 26 := by decide
  have hpages : pages (4096 * (n + 2)) = n + 2 := by rw [Nat.mul_comm, pages_mul]
  have hkeep := h.keep
  rw [hsz] at hkeep
  constructor
  · have hentry : Vm.entry m'.mem root (n + 1) = Vm.entry m₄.mem root (n + 1) :=
      entry_frame (fun table htable => hkeep table (Or.inl htable)) (n + 1)
    have hwalk := hstack.walkaddr
    rw [← Nat.add_zero (4096 * (n + 1)), walkaddr_eq (by omega) (by decide)] at hwalk ⊢
    rw [hentry]
    exact hwalk
  · intro base
    funext va
    rw [bytesFrom, bytesFrom, hkeep page (Or.inr hstack.mem_targets)]

/-- A successful `exec` has passed its arguments. -/
theorem Staged.passed {inode : Inode} {argv : List (List (BitVec 8))} {path : List Char}
    {root sz sp : ℕ} {m₁ m₂ m₃ m₄ m' : Machine}
    (hstaged : Staged L m frame inode argv root sz sp m₁ m₂ m₃ m₄)
    (hargs : ∀ arg ∈ argv, arg.length < 4096) {entry : ℕ}
    (hdone : Committed L m m₄ m' p (replaced p path root (4096 * (pages sz + 2))) frame root kern sp
      entry) :
    Passed m' (replaced p path root (4096 * (pages sz + 2))) frame root sp
      (addresses 16 (4096 * (pages sz + 2)) (argLengths argv)) argv := by
  have hready : StackPage L m m₃ frame root (pages sz)
      (pte2pa (Vm.entry m₃.mem root (pages sz + 1))) := ⟨hstaged.ready, rfl⟩
  have htop := hstaged.ready.size_lt
  have hlast : 4096 * trapframe < 2 ^ 38 := by decide
  rcases hready.execArgs hargs with
    ⟨-, hneed, m₄', hexec, hstack, harray, hholds⟩ | ⟨-, m₄', hexec⟩
  · rw [hstaged.args] at hexec
    cases hexec
    obtain ⟨hwalk, hbytes⟩ := hdone.stack_page rfl hstack
    have hbase : 4096 * (pages sz + 1) % 4096 = 0 := by omega
    have hroom := le_room (n := (argv.length + 1) * 8) (show 0 < 16 by decide)
    have hparts : stackNeed argv
        = total 16 (argLengths argv) + room 16 ((argv.length + 1) * 8) := rfl
    refine ⟨?_, hdone.sp_eq.trans hdone.a1_eq.symm, ?_, ⟨?_, ?_, ?_⟩, ?_, ?_, ?_⟩
    · rw [hdone.a1_eq, BitVec.toNat_ofNat, Nat.mod_eq_of_lt (by omega)]
    · rw [hparts, Nat.sub_add_eq]
      exact sub_room_mod (sub_total_mod (by omega))
    · change 4096 * (pages sz + 2) % 4096 = 0
      omega
    · change 4096 * (pages sz + 2) - 4096 ≤ _
      omega
    · change _ < 4096 * (pages sz + 2)
      omega
    · rw [copyin_bytes hbase hwalk (by omega) (by omega), hbytes, harray]
    · rw [Holds, List.forall₂_map_right_iff] at hholds
      apply hholds.imp
      rintro pointer arg ⟨hlo, hhi, hblock⟩
      rw [List.length_append, List.length_singleton] at hhi hblock
      refine ⟨?_, hlo, hhi⟩
      rw [copyin_bytes hbase hwalk (by omega) (by omega), hbytes, hblock]
    · have hpairs := addresses_pairwise (show 0 < 16 by decide)
        (show total 16 (argLengths argv) ≤ 4096 * (pages sz + 2) by omega)
      rw [argLengths, List.zip_map_right, List.pairwise_map] at hpairs
      exact hpairs
  · rw [hstaged.args] at hexec
    cases hexec

/-- If `exec` succeeds, the program finds its arguments in its memory.  The argument part
fails exactly when there are more than `MAXARG` strings or the stack page is too small. -/
theorem exec_passes_arguments {argv : List (List (BitVec 8))} (hlive : Live L m p frame user kern)
    (hapart : Apart m (owned m p)) (hnull : 0 ∉ m.free)
    (hargs : ∀ arg ∈ argv, arg.length < pgSize ∧ 0 ∉ arg)
    (ip : Option Inode) (path : List Char) :
    (∀ argc p' m', exec L m p ip path argv = .ok (some argc, p', m') →
      argc = argv.length ∧ ∃ root sp pointers, p'.trapframe = some frame ∧
        p'.pagetable = some root ∧ Passed m' p' frame root sp pointers argv) ∧
    ∀ inode root sz sz' m₁ m₂ m₃, ip = some inode →
      procPagetable L m frame = .ok (some root, m₁) →
      execLoad root inode (elfhdr (inode.readi 0 elfSize)).phnum
        (u32 (elfhdr (inode.readi 0 elfSize)).phoff) 0 m₁ = .ok (true, sz, m₂) →
      execStack m₂ root sz = .ok (true, sz', m₃) →
      ((∃ m₄, execArgs L m₃ root sz' argv = .ok (none, m₄)) ↔
        L.maxArg < argv.length ∨ pgSize < stackNeed argv) := by
  have hshort : ∀ arg ∈ argv, arg.length < 4096 := fun arg harg => (hargs arg harg).1
  constructor
  · intro argc p' m' hexec
    rcases exec_outcome hlive hapart hnull ip path argv with ⟨p'', m'', hfail⟩ |
      ⟨inode, root, sz, sp, m₁, m₂, m₃, m₄, m'', -, hstaged, hok, hdone⟩ | ⟨-, e, hpanic⟩
    · rw [hfail] at hexec
      cases hexec
    · rw [hok] at hexec
      cases hexec
      exact ⟨rfl, root, sp, _, hlive.trapframe, rfl, hstaged.passed hshort hdone⟩
    · rw [hpanic] at hexec
      cases hexec
  · intro inode root sz sz' m₁ m₂ m₃ _ htable hload hstack
    obtain ⟨hsz, hready⟩ := stack_ready hlive hapart hnull htable hload hstack
    subst hsz
    have hpage : StackPage L m m₃ frame root (pages sz)
        (pte2pa (entry m₃.mem root (pages sz + 1))) := ⟨hready, rfl⟩
    rw [pgSize]
    rcases hpage.execArgs hshort with ⟨hcount, hneed, m₄, hsome, -⟩ | ⟨hwhy, hnone⟩
    · refine iff_of_false ?_ (by omega)
      rintro ⟨m₄', hnone⟩
      rw [hsome] at hnone
      cases hnone
    · exact iff_of_true hnone hwhy

/-- `exec` of a file without program headers succeeds when there is room for the stack and
its mirror. -/
theorem exec_bareElf (argv : List (List (BitVec 8))) (hlive : Live L m p frame user kern)
    (hapart : Apart m (owned m p)) (hnull : 0 ∉ m.free)
    (hfree : 13 ≤ m.free.length) (hmany : m.free.length ≤ trapframe)
    (hplic : 2 ≤ L.plic) (hshort : ∀ arg ∈ argv, arg.length < 4096)
    (hcount : argv.length ≤ L.maxArg) (hneed : stackNeed argv ≤ 4096) (path : List Char) :
    ∃ root sp m₁ m₂ m₃ m₄ m', Staged L m frame bareElf argv root 0 sp m₁ m₂ m₃ m₄ ∧
      exec L m p (some bareElf) path argv
        = .ok (some argv.length, replaced p path root (4096 * (pages 0 + 2)), m') ∧
      Committed L m m₄ m' p (replaced p path root (4096 * (pages 0 + 2))) frame root kern sp
        (elfhdr (bareElf.readi 0 elfSize)).entry := by
  obtain ⟨hlength, hmagic, hphnum⟩ := bareElf_header
  have hbase := hapart.mono (Set.empty_subset _)
  rcases procPagetable_spec L hbase hlive.frame_lt with
    ⟨root, m₁, htable, hbuilt⟩ | ⟨m₁, -, -, hfew⟩
  · have hcount₁ := hbuilt.count
    rw [show (tablesFor topVpns).card = 2 by decide] at hcount₁
    have hload : execLoad root bareElf (elfhdr (bareElf.readi 0 elfSize)).phnum
        (u32 (elfhdr (bareElf.readi 0 elfSize)).phoff) 0 m₁ = .ok (true, 0, m₁) := by
      rw [hphnum, execLoad]
    have hneed₁ : userNeed m₁ root 0 (4096 * (pages 0 + 2)) = 4 := by
      rw [userNeed, hbuilt.missing_eq]
      decide
    rcases (hbuilt.image hbase hnull hlive.frame_lt).execStack with
      ⟨m₃, hstack, himage, hfree₃⟩ | ⟨-, -, -, hfew⟩ | ⟨hpanic, -⟩
    · have hpage : StackPage L m m₃ frame root (pages 0)
          (pte2pa (entry m₃.mem root (pages 0 + 1))) := ⟨himage, rfl⟩
      rcases hpage.execArgs hshort with ⟨-, -, m₄, hpush, -⟩ | ⟨hwhy, -⟩
      · obtain ⟨pushed, m₄', hpush', himage₄, hfree₄⟩ := himage.execArgs argv
        rw [hpush] at hpush'
        cases hpush'
        have hstaged : Staged L m frame bareElf argv root 0 (4096 * (pages 0 + 2) - stackNeed argv)
            m₁ m₁ m₃ m₄ :=
          ⟨⟨hlength, hmagic⟩, htable, hload, hstack, hpush, himage, himage₄⟩
        rcases himage₄.execCommit hlive hapart (4096 * (pages 0 + 2) - stackNeed argv)
          (elfhdr (bareElf.readi 0 elfSize)).entry argv.length path with
          ⟨m', hcommit, hdone, -⟩ | ⟨-, hwhy⟩
        · exact ⟨root, _, m₁, m₁, m₃, m₄, m', hstaged,
            (hstaged.exec_eq hlive.trapframe path).trans hcommit, hdone⟩
        · have hpages : pages (4096 * (pages 0 + 2)) = 2 := by decide
          have hmirror := kernNeed_le m kern (4096 * (pages 0 + 2))
          rw [hpages] at hmirror
          rw [hfree₄] at hwhy
          have hsize : 4096 * (pages 0 + 2) = 8192 := by decide
          omega
      · omega
    · have hshort := hfew (by decide)
      omega
    · omega
  · rw [show (tablesFor topVpns).card = 2 by decide] at hfew
    omega

theorem exec_passes_arguments_bareElf : ∃ (m : Machine) (p : Proc) (frame user kern : ℕ),
    Live virt m p frame user kern ∧ Apart m (owned m p) ∧
    ∃ p' m' root sp pointers, exec virt m p (some bareElf) [] [[0x61], []] = .ok (some 2, p', m') ∧
      p'.pagetable = some root ∧ Passed m' p' frame root sp pointers [[0x61], []] := by
  obtain ⟨m₀, m, p, frame, user, kern, hfresh, hstack, hapart, hnull, hfree⟩ :=
    exists_fresh virt (by decide) (show 100 < 2 ^ 51 by decide)
  have hlo : virt.phystop ≤ p.kstack := by
    rw [hstack]
    exact virt.kstack_ge 0 (by decide)
  have hlive := hfresh.live hlo (show ProcState.runnable ≠ .unused by decide)
  obtain ⟨root, sp, m₁, m₂, m₃, m₄, m', -, hexec, -⟩ := exec_bareElf [[0x61], []] hlive hapart hnull
    (by omega) (by rw [hfree]; decide) (by decide) (by decide) (by decide) (by decide) []
  obtain ⟨-, root', sp', pointers, -, hroot, hpassed⟩ :=
    (exec_passes_arguments hlive hapart hnull (by decide) (some bareElf) []).1 _ _ _ hexec
  exact ⟨m, _, frame, user, kern, hlive, hapart, _, m', root', sp', pointers, hexec, hroot, hpassed⟩

end Passing

end OperateSystem.Vm
